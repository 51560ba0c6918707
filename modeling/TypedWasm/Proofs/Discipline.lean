import TypedWasm.Binary.Validate
import TypedWasm.Proofs.Failing

/-!
# The stack discipline by names

The check of a module's bodies, said of listings whose locals and functions still go by name. It
keeps no offsets, so it depends on nothing but the listing and what its names stand for.
-/

namespace TypedWasm

open Failing Option

mutual

/-- An instruction, and after it those inside it. -/
def InstrOf.preorder {ι φ : Type} : InstrOf ι φ → List (InstrOf ι φ)
  | .block body => .block body :: InstrOf.allPreorder body
  | .loop body => .loop body :: InstrOf.allPreorder body
  | .cond yields thenBody elseBody =>
    .cond yields thenBody elseBody :: (InstrOf.allPreorder thenBody ++ InstrOf.allPreorder elseBody)
  | instr => [instr]

/-- The instructions of a listing at any depth, in the order they are written. -/
def InstrOf.allPreorder {ι φ : Type} : List (InstrOf ι φ) → List (InstrOf ι φ)
  | [] => []
  | first :: rest => first.preorder ++ InstrOf.allPreorder rest

end

namespace Validate.Stack

def swap (stack : Stack) (popped pushed : Nat) : Option Stack :=
  (stack.pop popped).map (·.push pushed)

/-- Whether a block may end here with `results` words. -/
def ends (stack : Stack) (results : Nat) : Bool := (stack.pop results).any (·.words == 0)

end Validate.Stack

namespace Discipline

open Validate (Stack)

variable {code : Code} (offset : Nat) {ops : List Op}

/-- What the names in a body stand for. -/
structure Scope where
  hasLocal : String → Bool
  /-- The type of a callee, if there is such a function. -/
  typeOf : Callee → Option FuncType

/-- The words an instruction takes and leaves, when it neither jumps nor holds a listing and its
names stand for something. -/
def effect (scope : Scope) : Instr → Option (Nat × Nat)
  | .const _ => some (0, 1)
  | .localGet name => if scope.hasLocal name then some (0, 1) else none
  | .localSet name => if scope.hasLocal name then some (1, 0) else none
  | .localTee name => if scope.hasLocal name then some (1, 1) else none
  | .load _ => some (1, 1)
  | .store _ => some (2, 0)
  | .numeric _ => some (2, 1)
  | .eqz => some (1, 1)
  | .memorySize => some (0, 1)
  | .memoryGrow => some (1, 1)
  | .call target => (scope.typeOf target).map fun type => (type.params, Validate.resultCount type)
  | .drop => some (1, 0)
  | .nop => some (0, 0)
  | _ => none

/-- The words a conditional leaves. -/
def yielded (yields : Bool) : Nat := if yields then 1 else 0

mutual

/-- The stack after an instruction. `labels` holds the words a jump to each enclosing block takes,
innermost first. -/
def instr (scope : Scope) (labels : List Nat) (stack : Stack) : Instr → Option Stack
  | .ret => (stack.pop 1).map fun _ => .dead
  | .unreachable => some .dead
  | .br depth => do
    let arity ← labels[depth.toNat]?
    (stack.pop arity).map fun _ => .dead
  | .brIf depth => do
    let stack ← stack.pop 1
    let arity ← labels[depth.toNat]?
    stack.swap arity arity
  | .block body => do
    let inner ← listing scope (0 :: labels) {} body
    if inner.ends 0 then some stack else none
  | .loop body => do
    let inner ← listing scope (0 :: labels) {} body
    if inner.ends 0 then some stack else none
  | .cond yields thenBody elseBody => do
    let stack ← stack.pop 1
    let thenEnd ← listing scope (yielded yields :: labels) {} thenBody
    let elseEnd ← listing scope (yielded yields :: labels) {} elseBody
    if thenEnd.ends (yielded yields) && elseEnd.ends (yielded yields) then
      some (stack.push (yielded yields))
    else none
  | other => (effect scope other).bind fun (popped, pushed) => stack.swap popped pushed

def listing (scope : Scope) (labels : List Nat) (stack : Stack) : Code → Option Stack
  | [] => some stack
  | first :: rest => (instr scope labels stack first).bind fun stack =>
    listing scope labels stack rest

end

/-- Whether a listing is a function body: it keeps the discipline and ends with one word. -/
def body (scope : Scope) (code : Code) : Bool :=
  (listing scope [1] {} code).any (·.ends 1)

def passed (result : Except Validate.Found Validate.After) : Option Stack :=
  match result with
  | .ok (_, stack) => some stack
  | .error _ => none

/-- Names resolve only where the scope knows them, and functions keep their types. -/
structure Resolves (scope : Scope) (typeOf : Nat → FuncType)
    (localIndex : String → Except Fault Nat) (calleeIndex : Callee → Except Fault Nat) : Prop where
  local_of_ok : ∀ {name index}, localIndex name = .ok index → scope.hasLocal name = true
  ok_of_local : ∀ {name}, scope.hasLocal name = true → ∃ index, localIndex name = .ok index
  type_of_ok : ∀ {callee index}, calleeIndex callee = .ok index →
    scope.typeOf callee = some (typeOf index)
  ok_of_type : ∀ {callee type}, scope.typeOf callee = some type →
    ∃ index, calleeIndex callee = .ok index

variable {scope : Scope} {typeOf : Nat → FuncType}
variable {localIndex : String → Except Fault Nat} {calleeIndex : Callee → Except Fault Nat}

@[simp] theorem passed_ok (stack : Stack) : passed (.ok (offset, stack)) = some stack :=
  rfl

@[simp] theorem passed_error (found : Validate.Found) : passed (.error found) = none := rfl

theorem passed_popPush (next offset : Nat) (stack : Stack) (popped pushed : Nat) :
    passed (do return (next, ← Validate.popPush offset stack popped pushed)) =
      stack.swap popped pushed := by
  simp only [Validate.popPush, Validate.popWords, Stack.swap]
  cases stack.pop popped <;> rfl

theorem passed_pop_dead (next offset : Nat) (stack : Stack) (popped : Nat) :
    passed (do
      let stack ← (do
        let _ ← Validate.popWords offset stack popped
        return Stack.dead)
      return (next, stack)) = (stack.pop popped).map fun _ => Stack.dead := by
  simp only [Validate.popWords]
  cases stack.pop popped <;> rfl

theorem endBlock_eq_ok_iff (stack : Stack) (results : Nat) :
    Validate.endBlock offset stack results = .ok () ↔ stack.ends results = true := by
  cases hpop : stack.pop results with
  | none => simp [Validate.endBlock, Validate.popWords, Stack.ends, hpop, bind, Except.bind]
  | some rest =>
    by_cases h : rest.words = 0
    · simp [Validate.endBlock, Validate.popWords, Stack.ends, hpop, h, bind, Except.bind, pure,
        Except.pure]
    · simp [Validate.endBlock, Validate.popWords, Stack.ends, hpop, h, bind, Except.bind]

theorem passed_endBlock (stack : Stack) (results : Nat)
    (next : Except Validate.Found Validate.After) :
    passed (do
      Validate.endBlock offset stack results
      next) = if stack.ends results then passed next else none := by
  have hiff := endBlock_eq_ok_iff offset stack results
  cases hend : Validate.endBlock offset stack results with
  | error found =>
    rw [hend] at hiff
    rw [if_neg (fun h => by simpa using hiff.2 h)]
    rfl
  | ok =>
    rw [if_pos (hiff.1 hend)]
    rfl

theorem resolved {step : Except Fault Nat} {make : Nat → Op} {op : Op}
    (h : (do return make (← step)) = Except.ok op) : ∃ index, step = .ok index ∧
      make index = op := by
  obtain ⟨index, hi, ho⟩ := bind_eq_ok_iff.1 h
  exact ⟨index, hi, pure_eq_ok_iff.1 ho⟩

theorem passed_effect (labels : List Nat) (stack : Stack) {popped pushed next offset : Nat}
    {i : Instr} (he : effect scope i = some (popped, pushed)) :
    passed (do return (next, ← Validate.popPush offset stack popped pushed)) =
      instr scope labels stack i := by
  rw [passed_popPush]
  cases i with
  | ret | unreachable | block | loop | cond | br | brIf => simp [effect] at he
  | _ => simp only [instr, he, bind_some]

theorem passed_bind (result : Except Validate.Found Validate.After)
    (next : Validate.After → Except Validate.Found Validate.After) (byNames : Stack → Option Stack)
    (h : ∀ offset stack, passed (next (offset, stack)) = byNames stack) :
    passed (result >>= next) = (passed result).bind byNames := by
  rcases result with _ | ⟨offset, stack⟩
  · rfl
  · exact h offset stack

theorem passed_block (inside : Except Validate.Found Validate.After) (results : Nat)
    (next : Nat → Except Validate.Found Validate.After) (after : Option Stack)
    (h : ∀ offset, passed (next offset) = after) :
    passed (inside >>= fun inner => do
      Validate.endBlock inner.1 inner.2 results
      next inner.1) =
      (passed inside).bind fun inner => if inner.ends results then after else none := by
  refine passed_bind inside _ _ fun offset stack => ?_
  rw [passed_endBlock, h]

theorem isEmpty_resolved (h : Resolve.body localIndex calleeIndex code = .ok ops) :
    ops.isEmpty = code.isEmpty := by
  cases code with
  | nil =>
    cases h
    rfl
  | cons first rest =>
    obtain ⟨_, _, h⟩ := bind_eq_ok_iff.1 h
    obtain ⟨_, _, h⟩ := bind_eq_ok_iff.1 h
    cases h
    rfl

mutual

theorem instr_validates (hr : Resolves scope typeOf localIndex calleeIndex) :
    ∀ (i : Instr) {op : Op}, Resolve.instr localIndex calleeIndex i = .ok op →
      ∀ (labels : List Nat) (offset : Nat) (stack : Stack),
        passed (Validate.op typeOf labels offset stack op) = instr scope labels stack i := by
  intro i op h labels offset stack
  cases i with
  | block inner | loop inner =>
    obtain ⟨ops, hops, ho⟩ := bind_eq_ok_iff.1 h
    cases ho
    have hinner := listing_validates hr inner hops (0 :: labels) (offset + 2) {}
    simp only [Validate.op, instr, ← hinner]
    exact passed_block _ 0 (fun endOffset => .ok (endOffset + 1, stack)) _ fun _ => rfl
  | cond yields thenBody elseBody =>
    obtain ⟨thenOps, hthen, h⟩ := bind_eq_ok_iff.1 h
    obtain ⟨elseOps, helse, ho⟩ := bind_eq_ok_iff.1 h
    cases ho
    have hthenPasses :=
      listing_validates hr thenBody hthen (yielded yields :: labels) (offset + 2) {}
    simp only [Validate.op, Validate.popWords, instr]
    cases stack.pop 1 with
    | none => rfl
    | some stack =>
      -- Either form of the else branch passes with the listing of that branch.
      have helsePasses : ∀ thenEnd, passed (
          if elseOps.isEmpty then do
            Validate.endBlock thenEnd {} (yielded yields)
            return (thenEnd + 1, stack.push (yielded yields))
          else
            Validate.ops typeOf (yielded yields :: labels) (thenEnd + 1) {} elseOps >>= fun inner =>
              do
              Validate.endBlock inner.1 inner.2 (yielded yields)
              return (inner.1 + 1, stack.push (yielded yields))) =
          (listing scope (yielded yields :: labels) {} elseBody).bind fun inner =>
            if inner.ends (yielded yields) then some (stack.push (yielded yields)) else none := by
        intro thenEnd
        rw [isEmpty_resolved helse]
        cases elseBody with
        | nil => exact passed_endBlock _ _ _ _
        | cons first rest =>
          rw [← listing_validates hr (first :: rest) helse (yielded yields :: labels)
            (thenEnd + 1) {}]
          exact passed_block _ _ (fun elseEnd => .ok (elseEnd + 1, stack.push (yielded yields))) _
            fun _ => rfl
      refine (passed_block (Validate.ops typeOf (yielded yields :: labels) (offset + 2) {} thenOps)
        (yielded yields) _ _ helsePasses).trans ?_
      rw [hthenPasses]
      cases listing scope (yielded yields :: labels) {} thenBody with
      | none => rfl
      | some thenEnd =>
        cases listing scope (yielded yields :: labels) {} elseBody with
        | none => simp
        | some elseEnd => cases hends : thenEnd.ends (yielded yields) <;> simp [hends]
  | ret =>
    cases h
    exact passed_pop_dead _ _ _ _
  | unreachable =>
    cases h
    rfl
  | br depth =>
    cases h
    simp only [Validate.op, Validate.plain, instr]
    cases labels[depth.toNat]? with
    | none => rfl
    | some arity => exact passed_pop_dead _ _ _ _
  | brIf depth =>
    cases h
    simp only [Validate.op, Validate.plain, instr, Validate.popWords]
    cases stack.pop 1 with
    | none => rfl
    | some stack =>
      cases labels[depth.toNat]? with
      | none => rfl
      | some arity => exact passed_popPush _ _ _ _ _
  | const | memorySize | nop =>
    cases h
    rfl
  | load | store | numeric | eqz | memoryGrow =>
    cases h
    exact passed_effect labels stack rfl
  | drop =>
    cases h
    simp only [Validate.op, Validate.plain, instr, effect, bind_some, Stack.swap]
    cases stack.pop 1 <;> rfl
  | localGet name =>
    obtain ⟨index, hi, rfl⟩ := resolved h
    simp only [instr, effect, hr.local_of_ok hi, if_true]
    rfl
  | localSet name | localTee name =>
    obtain ⟨index, hi, rfl⟩ := resolved h
    refine passed_effect labels stack ?_
    simp only [effect, hr.local_of_ok hi, if_true]
  | call target =>
    obtain ⟨index, hi, rfl⟩ := resolved h
    refine passed_effect labels stack ?_
    simp only [effect, hr.type_of_ok hi, map_some]

theorem listing_validates (hr : Resolves scope typeOf localIndex calleeIndex) :
    ∀ (code : Code) {ops : List Op}, Resolve.body localIndex calleeIndex code = .ok ops →
      ∀ (labels : List Nat) (offset : Nat) (stack : Stack),
        passed (Validate.ops typeOf labels offset stack ops) = listing scope labels stack code
  | [], _, h, _, _, _ => by
    cases h
    rfl
  | first :: rest, ops, h, labels, offset, stack => by
    obtain ⟨op, hop, h⟩ := bind_eq_ok_iff.1 h
    obtain ⟨ops, hops, ho⟩ := bind_eq_ok_iff.1 h
    cases ho
    simp only [Validate.ops, listing, ← instr_validates hr first hop labels offset stack]
    exact passed_bind _ _ _ fun offset stack => listing_validates hr rest hops labels offset stack

end

theorem local_resolves (hr : Resolves scope typeOf localIndex calleeIndex) {name : String}
    {taken : Nat × Nat} {stack after : Stack}
    (h : (if scope.hasLocal name then some taken else none).bind
      (fun (popped, pushed) => stack.swap popped pushed) = some after) :
    ∃ index, localIndex name = .ok index := by
  by_cases hl : scope.hasLocal name = true
  · exact hr.ok_of_local hl
  · rw [if_neg hl] at h
    cases h

mutual

theorem instr_resolves (hr : Resolves scope typeOf localIndex calleeIndex) :
    ∀ (i : Instr) {labels : List Nat} {stack after : Stack},
      instr scope labels stack i = some after →
        ∃ op, Resolve.instr localIndex calleeIndex i = .ok op := by
  intro i labels stack after h
  cases i with
  | const | load | store | numeric | eqz | memorySize | memoryGrow | drop | ret | unreachable
  | nop | br | brIf => exact ⟨_, rfl⟩
  | localGet name | localSet name | localTee name =>
    obtain ⟨index, hi⟩ := local_resolves hr h
    exact ⟨_, by simp only [Resolve.instr, hi]; rfl⟩
  | call target =>
    simp only [instr, effect, bind_eq_some_iff, map_eq_some_iff] at h
    obtain ⟨_, ⟨type, htype, -⟩, -⟩ := h
    obtain ⟨index, hi⟩ := hr.ok_of_type htype
    exact ⟨.call index, by simp only [Resolve.instr, hi]; rfl⟩
  | block inner | loop inner =>
    simp only [instr, bind, bind_eq_some_iff] at h
    obtain ⟨_, hinner, -⟩ := h
    obtain ⟨ops, hops⟩ := listing_resolves hr inner hinner
    exact ⟨_, by simp only [Resolve.instr, hops]; rfl⟩
  | cond yields thenBody elseBody =>
    simp only [instr, bind, bind_eq_some_iff] at h
    obtain ⟨_, -, _, hthen, _, helse, -⟩ := h
    obtain ⟨thenOps, ht⟩ := listing_resolves hr thenBody hthen
    obtain ⟨elseOps, he⟩ := listing_resolves hr elseBody helse
    exact ⟨.cond yields thenOps elseOps, by simp only [Resolve.instr, ht, he]; rfl⟩

theorem listing_resolves (hr : Resolves scope typeOf localIndex calleeIndex) :
    ∀ (code : Code) {labels : List Nat} {stack after : Stack},
      listing scope labels stack code = some after →
        ∃ ops, Resolve.body localIndex calleeIndex code = .ok ops := by
  intro code labels stack after h
  cases code with
  | nil => exact ⟨[], rfl⟩
  | cons first rest =>
    simp only [listing, bind_eq_some_iff] at h
    obtain ⟨_, hfirst, hrest⟩ := h
    obtain ⟨op, hop⟩ := instr_resolves hr first hfirst
    obtain ⟨ops, hops⟩ := listing_resolves hr rest hrest
    exact ⟨op :: ops, by simp only [Resolve.body, hop, hops]; rfl⟩

end

variable (hr : Resolves scope typeOf localIndex calleeIndex)
include hr

/-- A function body passes the check by indices, wherever it stands, exactly when it keeps the
discipline. -/
theorem body_validates_iff (h : Resolve.body localIndex calleeIndex code = .ok ops) (offset : Nat) :
    Validate.body typeOf offset ops = .ok () ↔ body scope code = true := by
  have hlisting := listing_validates hr code h [1] offset {}
  rw [Validate.body, body, ← hlisting]
  cases Validate.ops typeOf [1] offset {} ops with
  | error found => simp [bind, Except.bind]
  | ok after => exact endBlock_eq_ok_iff after.1 after.2 1

theorem body_resolves (h : body scope code = true) :
    ∃ ops, Resolve.body localIndex calleeIndex code = .ok ops := by
  cases hl : listing scope [1] {} code with
  | none => simp [body, hl] at h
  | some after => exact listing_resolves hr code hl

end Discipline

end TypedWasm
