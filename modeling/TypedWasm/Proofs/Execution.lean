import Mathlib.Algebra.Order.Ring.Nat
import Mathlib.Data.List.Nodup
import TypedWasm.Machine.Exec
import TypedWasm.Proofs.Compiling
import TypedWasm.Proofs.Names

/-!
# Runs without a depth

The interpreter recurses on a depth that only makes it total. A listing that starts with fuel `f`
never uses more than `2 * f + 1` of it, so a run is a function of the listing and the state alone.
-/

namespace TypedWasm

open List Machine

variable {result : Exec.Result} {depth : Nat} {fn : Func} {name : String} {u : CompiledUnit}
  {config : Config} (m : Machine)

/-! ### Machines with other functions and fuel -/

namespace Machine

def equip (m : Machine) (functions : List Func) (fuel : Nat) : Machine :=
  { m with functions, fuel }

section Equip

variable (m : Machine) (functions : List Func) (fuel : Nat) (address : Word)

@[simp] theorem equip_memory : (m.equip functions fuel).memory = m.memory := rfl

@[simp] theorem equip_output : (m.equip functions fuel).output = m.output := rfl

@[simp] theorem equip_functions : (m.equip functions fuel).functions = functions := rfl

@[simp] theorem equip_fuel : (m.equip functions fuel).fuel = fuel := rfl

@[simp] theorem equip_equip (functions' : List Func) (fuel' : Nat) :
    (m.equip functions fuel).equip functions' fuel' = m.equip functions' fuel' := rfl

@[simp] theorem equip_self : m.equip m.functions m.fuel = m := rfl

@[simp] theorem loadWord_equip (offset : UInt32) :
    (m.equip functions fuel).loadWord address offset = m.loadWord address offset := rfl

theorem storeWord_equip (offset : UInt32) (value : Word) :
    (m.equip functions fuel).storeWord address offset value =
      (m.storeWord address offset value).map (·.equip functions fuel) := by
  simp only [storeWord, equip_memory]
  cases m.memory.store? (effective address offset) value <;> rfl

theorem grow_equip (delta : UInt32) : (m.equip functions fuel).grow delta =
      ((m.grow delta).1, (m.grow delta).2.equip functions fuel) := by
  have hpages : (m.equip functions fuel).pages = m.pages := rfl
  have hmax : (m.equip functions fuel).maxPages = m.maxPages := rfl
  simp only [grow, hpages, hmax]
  split <;> rfl

@[simp] theorem readWords_equip (address count : Nat) :
    (m.equip functions fuel).readWords address count = m.readWords address count := rfl

@[simp] theorem readString_equip :
    (m.equip functions fuel).readString address = m.readString address := rfl

@[simp] theorem readBigint_equip :
    (m.equip functions fuel).readBigint address = m.readBigint address := rfl

theorem writeWords_equip (words : List Word) (offset : UInt32) :
    (m.equip functions fuel).writeWords address offset words =
      ((m.writeWords address offset words).1,
        (m.writeWords address offset words).2.equip functions fuel) := by
  induction words generalizing m offset with
  | nil => rfl
  | cons word rest ih =>
    simp only [writeWords, storeWord_equip]
    cases m.storeWord address offset word with
    | error trap => rfl
    | ok m' => exact ih m' (offset + 4)

/-- The words of a block written at the head, once there is room for them. -/
def placeWords (m : Machine) (address after : Word) (words : List Word) : Effect Word :=
  match m.storeWord (Word.ofUInt32 heapHeadAddress) 0 after with
  | .error trap => (.error trap, m)
  | .ok m =>
    match writeWords m address 0 words with
    | (.ok (), m) => (.ok address, m)
    | (.error trap, m) => (.error trap, m)

theorem placeWords_equip (address after : Word) (words : List Word) :
    (m.equip functions fuel).placeWords address after words = ((m.placeWords address after words).1,
        (m.placeWords address after words).2.equip functions fuel) := by
  simp only [placeWords, storeWord_equip]
  cases m.storeWord (Word.ofUInt32 heapHeadAddress) 0 after with
  | error trap => rfl
  | ok m' =>
    simp only [Except.map, writeWords_equip]
    rcases writeWords m' address 0 words with ⟨_ | _, _⟩ <;> rfl

theorem allocateBigint_equip (value : Int) : (m.equip functions fuel).allocateBigint value =
      ((m.allocateBigint value).1, (m.allocateBigint value).2.equip functions fuel) := by
  have hhead : (m.equip functions fuel).heapHead = m.heapHead := rfl
  have hpages : (m.equip functions fuel).pages = m.pages := rfl
  simp only [allocateBigint, hhead, hpages]
  generalize Lowering.bigintWords value = words
  generalize m.heapHead.toInt + 4 * words.length = after
  generalize pagesBelow (Word.ofInt after).toAddress = needed
  split
  · rfl
  · by_cases hroom : m.pages < needed
    · simp only [if_pos hroom, grow_equip]
      split
      · exact placeWords_equip _ _ _ _ _ _
      · rfl
    · simp only [if_neg hroom, if_true]
      exact placeWords_equip _ _ _ _ _ _

theorem printing_equip (word : Word) (text : Except Trap String) :
    (m.equip functions fuel).printing word text =
      ((m.printing word text).1, (m.printing word text).2.equip functions fuel) := by
  cases text <;> rfl

theorem host_equip (intrinsic : Intrinsic) (args : List Word) :
    (m.equip functions fuel).host intrinsic args =
      ((m.host intrinsic args).1, (m.host intrinsic args).2.equip functions fuel) := by
  simp only [host, readString_equip, readBigint_equip, printing_equip, allocateBigint_equip]
  split <;> first | rfl | (split <;> rfl)

end Equip

end Machine

/-! ### Memory over a run -/

/-- What a run does to memory: it writes words inside of it, and adds pages. -/
inductive Memory.Evolves (memory : Memory) : Memory → Prop
  | refl : Evolves memory memory
  | write {memory' : Memory} {address : Nat} {value : Word} (h : Evolves memory memory')
      (hinside : address + 4 ≤ memory'.size) (hlt : address < 2 ^ 33) :
      Evolves memory (memory'.setWord address value)
  | grow {memory' : Memory} {pages : Nat} (h : Evolves memory memory')
      (hpages : memory'.pages ≤ pages) : Evolves memory { memory' with pages }

theorem Memory.Evolves.trans {memory₁ memory₂ memory₃ : Memory} (h : memory₁.Evolves memory₂)
    (h' : memory₂.Evolves memory₃) : memory₁.Evolves memory₃ := by
  induction h' with
  | refl => exact h
  | write _ hinside hlt ih => exact .write ih hinside hlt
  | grow _ hpages ih => exact .grow ih hpages

namespace Machine

section Memory

variable {m m' : Machine} {address value : Word} {offset : UInt32}

theorem effective_lt (address : Word) (offset : UInt32) : effective address offset < 2 ^ 33 := by
  have haddress : address.toAddress < 2 ^ 32 := address.toUInt32.toNat_lt
  have := offset.toNat_lt
  rw [effective]
  omega

theorem storeWord_eq_ok (h : m.storeWord address offset value = .ok m') :
    effective address offset + 4 ≤ m.memory.size ∧
      m' = { m with memory := m.memory.setWord (effective address offset) value } := by
  simp only [storeWord, Memory.store?] at h
  split at h
  · next memory hmemory =>
    rw [Option.ite_none_right_eq_some] at hmemory
    obtain ⟨hinside, hmemory⟩ := hmemory
    cases hmemory
    exact ⟨hinside, (Except.ok.inj h).symm⟩
  · cases h

theorem storeWord_evolves (h : m.storeWord address offset value = .ok m') :
    m.memory.Evolves m'.memory := by
  obtain ⟨hinside, rfl⟩ := storeWord_eq_ok h
  exact .write .refl hinside (effective_lt address offset)

theorem grow_evolves (m : Machine) (delta : UInt32) : m.memory.Evolves (m.grow delta).2.memory := by
  rw [grow]
  split
  · exact .grow .refl (Nat.le_add_right _ _)
  · exact .refl

theorem writeWords_evolves (address : Word) (words : List Word) (m : Machine) (offset : UInt32) :
    m.memory.Evolves (m.writeWords address offset words).2.memory := by
  induction words generalizing m offset with
  | nil => exact .refl
  | cons word rest ih =>
    rw [writeWords]
    split
    · next m' hm' => exact (storeWord_evolves hm').trans (ih m' _)
    · exact .refl

theorem placeWords_evolves (m : Machine) (address after : Word) (words : List Word) :
    m.memory.Evolves (m.placeWords address after words).2.memory := by
  rw [placeWords]
  split
  · exact .refl
  · next m' hm' =>
    have hwritten := (storeWord_evolves hm').trans (writeWords_evolves address words m' 0)
    split <;> simpa [*] using hwritten

theorem allocateBigint_evolves (m : Machine) (value : Int) :
    m.memory.Evolves (m.allocateBigint value).2.memory := by
  simp only [allocateBigint]
  split
  · exact .refl
  · by_cases hroom : m.pages < pagesBelow (Word.toAddress (Word.ofInt (m.heapHead.toInt +
        4 * (Lowering.bigintWords value).length)))
    · simp only [if_pos hroom]
      split
      · exact (grow_evolves m _).trans (placeWords_evolves _ _ _ _)
      · exact grow_evolves m _
    · simp only [if_neg hroom, if_true]
      exact placeWords_evolves m _ _ _

theorem host_evolves (m : Machine) (intrinsic : Intrinsic) (args : List Word) :
    m.memory.Evolves (m.host intrinsic args).2.memory := by
  have hprinting : ∀ word text, m.memory.Evolves (m.printing word text).2.memory := by
    rintro word (_ | _) <;> exact .refl
  simp only [host]
  split
  case h_13 | h_14 | h_15 | h_16 | h_17 =>
    split
    · exact allocateBigint_evolves m _
    · exact .refl
  all_goals first | exact .refl | exact hprinting _ _ | (split <;> exact .refl)

end Memory

/-- What any part of a run keeps of a machine. Fuel never rises. -/
structure Follows (m m' : Machine) : Prop where
  functions : m'.functions = m.functions
  fuel : m'.fuel ≤ m.fuel
  memory : m.memory.Evolves m'.memory

namespace Follows

theorem refl : m.Follows m := ⟨rfl, Nat.le_refl _, .refl⟩

theorem trans {m₁ m₂ m₃ : Machine} (h : m₁.Follows m₂) (h' : m₂.Follows m₃) : m₁.Follows m₃ :=
  ⟨h'.functions.trans h.functions, Nat.le_trans h'.fuel h.fuel, h.memory.trans h'.memory⟩

theorem of_equip {m m' : Machine} (h : m' = m'.equip m.functions m.fuel)
    (hmemory : m.memory.Evolves m'.memory) : m.Follows m' := by
  rw [h]
  exact ⟨rfl, Nat.le_refl _, hmemory⟩

end Follows

theorem host_follows (intrinsic : Intrinsic) (args : List Word) :
    m.Follows (m.host intrinsic args).2 :=
  .of_equip (congrArg Prod.snd (host_equip m m.functions m.fuel intrinsic args))
    (host_evolves m intrinsic args)

end Machine

/-! ### Atomic instructions -/

/-- Whether an instruction runs no listing of its own and calls nothing. -/
def InstrOf.isAtomic {ι φ : Type} : InstrOf ι φ → Bool
  | .call _ | .block _ | .loop _ | .cond .. => false
  | _ => true

theorem InstrOf.atomic_or {ι φ : Type} (instr : InstrOf ι φ) :
    instr.isAtomic = true ∨ (∃ target, instr = .call target) ∨ (∃ body, instr = .block body) ∨
      (∃ body, instr = .loop body) ∨
      ∃ yields thenBody elseBody, instr = .cond yields thenBody elseBody := by
  cases instr <;> simp [isAtomic]

def State.equip (s : State) (functions : List Func) (fuel : Nat) : State :=
  { s with machine := s.machine.equip functions fuel }

namespace Exec

variable {s : State} {code : Code}

def Result.equip (result : Result) (functions : List Func) (fuel : Nat) : Result :=
  (result.1, result.2.equip functions fuel)

/-- An atomic instruction sees neither the loaded functions nor the fuel, and runs no listing. -/
theorem step_atomic (run run' : Code → State → Result)
    (again again' : Nat → Code → State → Result) {instr : Instr}
    (h : instr.isAtomic = true) (s : State) (functions : List Func) (fuel : Nat) :
    step run again instr (s.equip functions fuel) =
      Result.equip (step run' again' instr s) functions fuel := by
  obtain ⟨m, locals, stack⟩ := s
  cases instr with
  | call | block | loop | cond => simp [InstrOf.isAtomic] at h
  | const | memorySize | ret | unreachable | nop | br => rfl
  | localGet name =>
    simp only [step, State.equip]
    cases locals.get? name <;> rfl
  | localSet name | localTee name =>
    cases stack with
    | nil => rfl
    | cons value rest =>
      simp only [step, State.equip]
      cases locals.set? name value <;> rfl
  | store offset =>
    rcases stack with _ | ⟨value, _ | ⟨address, rest⟩⟩
    · rfl
    · rfl
    · simp only [step, State.equip, storeWord_equip]
      cases m.storeWord address offset value <;> rfl
  | load | numeric | memoryGrow | eqz | drop | brIf =>
    rcases stack with _ | ⟨_, _ | _⟩ <;>
      simp only [step, State.equip, loadWord_equip, grow_equip] <;> (try split) <;> rfl

theorem atomic_evolves (run : Code → State → Result) (again : Nat → Code → State → Result)
    {instr : Instr} (h : instr.isAtomic = true) (s : State) :
    s.machine.memory.Evolves (step run again instr s).2.machine.memory := by
  obtain ⟨m, locals, stack⟩ := s
  cases instr with
  | call | block | loop | cond => simp [InstrOf.isAtomic] at h
  | store offset =>
    rcases stack with _ | ⟨value, _ | ⟨address, rest⟩⟩
    · exact .refl
    · exact .refl
    · simp only [step]
      split
      · next hm => exact storeWord_evolves hm
      · exact .refl
  | memoryGrow =>
    cases stack with
    | nil => exact .refl
    | cons delta rest => exact grow_evolves m _
  | _ =>
    rcases stack with _ | ⟨_, _ | _⟩ <;> simp only [step] <;> (try split) <;> exact .refl

/-! ### Calls -/

/-- The state after a call, given what is left of the stack below the arguments. -/
def afterCall (s : State) (rest : List Word) : Machine.Effect Word → Result
  | (.ok word, machine) => (.next, { s with machine, stack := word :: rest })
  | (.error trap, machine) => (.trap trap, { s with machine, stack := rest })

def callNamed (run : Code → State → Result) (name : String) (s : State) : Result :=
  match s.machine.function? name with
  | none => (.trap (.unknownFunction name), s)
  | some fn =>
    match popArgs? s.stack fn.params.length with
    | none => (.trap .stackUnderflow, s)
    | some (args, rest) => afterCall s rest (call run s.machine fn args)

def callHost (intrinsic : Intrinsic) (s : State) : Result :=
  match popArgs? s.stack intrinsic.arity with
  | none => (.trap .stackUnderflow, s)
  | some (args, rest) => afterCall s rest (s.machine.host intrinsic args)

section Callee

variable (run : Code → State → Result) (s : State)

@[simp] theorem callee_user (name : String) : callee run (.user name) s = callNamed run name s :=
  rfl

@[simp] theorem callee_helper (helper : Helper) :
    callee run (.helper helper) s = callNamed run helper.name s := rfl

@[simp] theorem callee_intrinsic (intrinsic : Intrinsic) :
    callee run (.intrinsic intrinsic) s = callHost intrinsic s := rfl

end Callee

/-! ### What a run keeps -/

/-- The state after a result keeps of the machine what any part of a run keeps. -/
def Keeps (s : State) (result : Result) : Prop := s.machine.Follows result.2.machine

section Keeps

variable {run : Code → State → Result} {again : Nat → Code → State → Result}

theorem Keeps.leaveBody {atLabel : State → State} (h : Keeps s result)
    (hlabel : ∀ t, (atLabel t).machine = t.machine) : Keeps s (leaveBody atLabel result) := by
  obtain ⟨flow, t⟩ := result
  rcases flow with _ | ⟨_ | depth⟩ | _ | _
  · exact h
  · simpa only [Keeps, Exec.leaveBody, hlabel] using h
  all_goals exact h

theorem afterCall_keeps {rest : List Word} {effect : Machine.Effect Word}
    (h : s.machine.Follows effect.2) : Keeps s (afterCall s rest effect) := by
  obtain ⟨_ | _, machine⟩ := effect <;> exact h

theorem call_follows (hrun : ∀ code t, Keeps t (run code t)) (m : Machine) (fn : Func)
    (args : List Word) : m.Follows (call run m fn args).2 := by
  have h := hrun fn.body { machine := m, locals := Frame.ofCall fn args }
  simp only [call]
  split
  · next he => simpa only [Keeps, he] using h
  · next he => split <;> simpa only [Keeps, he] using h

theorem callNamed_keeps (hrun : ∀ code t, Keeps t (run code t)) (name : String) (s : State) :
    Keeps s (callNamed run name s) := by
  simp only [callNamed]
  split
  · exact .refl _
  · split
    · exact .refl _
    · exact afterCall_keeps (call_follows hrun _ _ _)

theorem callHost_keeps (intrinsic : Intrinsic) (s : State) : Keeps s (callHost intrinsic s) := by
  simp only [callHost]
  split
  · exact .refl _
  · exact afterCall_keeps (host_follows _ _ _)

theorem callee_keeps (hrun : ∀ code t, Keeps t (run code t)) (target : Callee) (s : State) :
    Keeps s (callee run target s) := by
  cases target with
  | user name => exact callNamed_keeps hrun name s
  | helper helper => exact callNamed_keeps hrun helper.name s
  | intrinsic intrinsic => exact callHost_keeps intrinsic s

theorem step_keeps (hrun : ∀ code t, Keeps t (run code t))
    (hagain : ∀ height body t, Keeps t (again height body t)) (instr : Instr) (s : State) :
    Keeps s (step run again instr s) := by
  rcases instr.atomic_or with h | ⟨target, rfl⟩ | ⟨body, rfl⟩ | ⟨body, rfl⟩ | ⟨_, thenBody,
    elseBody, rfl⟩
  · have he := step_atomic run run again again h s s.machine.functions s.machine.fuel
    exact .of_equip (congrArg (·.2.machine) he) (atomic_evolves run again h s)
  · exact callee_keeps hrun target s
  · exact (hrun body s).leaveBody fun _ => rfl
  · exact hagain _ body s
  · obtain ⟨m, locals, _ | ⟨value, rest⟩⟩ := s
    · exact .refl _
    · exact (hrun (if value ≠ 0 then thenBody else elseBody)
        ⟨m, locals, rest⟩).leaveBody fun _ => rfl

end Keeps

theorem burn_follows (s : State) : s.machine.Follows s.burn.machine :=
  ⟨rfl, Nat.sub_le _ _, .refl⟩

theorem run_follows (depth : Nat) : (∀ code s, Keeps s (run depth code s)) ∧
      ∀ height body s, Keeps s (again depth height body s) := by
  induction depth with
  | zero => exact ⟨fun _ _ => .refl _, fun _ _ _ => .refl _⟩
  | succ depth ih =>
    obtain ⟨hrun, hagain⟩ := ih
    constructor
    · intro code s
      cases code with
      | nil => exact .refl _
      | cons instr rest =>
        simp only [run]
        split
        · exact .refl _
        · have hstep := (burn_follows s).trans (step_keeps hrun hagain instr s.burn)
          split
          · next t he =>
            rw [he] at hstep
            exact hstep.trans (hrun rest t)
          · exact hstep
    · intro height body s
      have hbody := hrun body s
      simp only [again]
      split
      · next t he =>
        rw [he] at hbody
        exact Machine.Follows.trans hbody (hagain height body (t.truncate height))
      · next t he => rwa [he] at hbody
      · exact hbody

/-! ### The depth does not matter -/

section Depth

variable {run' : Code → State → Result} {again' : Nat → Code → State → Result}
variable {run'' : Code → State → Result} {again'' : Nat → Code → State → Result}

theorem callNamed_congr (hrun : ∀ code t, t.machine = s.machine → run' code t = run'' code t)
    (name : String) : callNamed run' name s = callNamed run'' name s := by
  simp only [callNamed]
  split
  · rfl
  · split
    · rfl
    · simp only [call, hrun _ { machine := s.machine, locals := Frame.ofCall _ _ } rfl]

/-- One instruction depends on how listings and loops run only from its own machine on. -/
theorem step_congr (hrun : ∀ code t, t.machine = s.machine → run' code t = run'' code t)
    (hagain : ∀ height body t, t.machine = s.machine →
      again' height body t = again'' height body t) (instr : Instr) :
    step run' again' instr s = step run'' again'' instr s := by
  rcases instr.atomic_or with h | ⟨target, rfl⟩ | ⟨body, rfl⟩ | ⟨body, rfl⟩ | ⟨_, thenBody,
    elseBody, rfl⟩
  · have hself := step_atomic run'' run'' again'' again'' h s s.machine.functions s.machine.fuel
    have hother := step_atomic run' run'' again' again'' h s s.machine.functions s.machine.fuel
    exact hother.trans hself.symm
  · cases target with
    | user name => exact callNamed_congr hrun name
    | helper helper => exact callNamed_congr hrun helper.name
    | intrinsic intrinsic => rfl
  · simp only [step, hrun body s rfl]
  · exact hagain _ body s rfl
  · obtain ⟨m, locals, _ | ⟨value, rest⟩⟩ := s
    · rfl
    · exact congrArg (leaveBody _) (hrun _ ⟨m, locals, rest⟩ rfl)

end Depth

theorem fuel_lt_of_branch {label : Nat} {t : State} (h : run depth code s = (.branch label, t)) :
    t.machine.fuel < s.machine.fuel := by
  rcases depth with _ | depth
  · simp [run] at h
  · cases code with
    | nil => simp [run] at h
    | cons instr rest =>
      simp only [run] at h
      split at h
      · simp at h
      · next hfuel =>
        have hburn : s.burn.machine.fuel < s.machine.fuel := by
          simp only [State.burn]
          omega
        have hstep := step_keeps (run_follows depth).1 (run_follows depth).2 instr s.burn
        split at h
        · next t' he =>
          rw [he] at hstep
          have hrest := (run_follows depth).1 rest t'
          rw [h] at hrest
          exact Nat.lt_of_le_of_lt (Nat.le_trans hrest.fuel hstep.fuel) hburn
        · rw [h] at hstep
          exact Nat.lt_of_le_of_lt hstep.fuel hburn

theorem depth_irrelevant (depth : Nat) :
    (∀ depth' code s, 2 * s.machine.fuel + 1 ≤ depth → 2 * s.machine.fuel + 1 ≤ depth' →
      run depth code s = run depth' code s) ∧
    (∀ depth' height body s, 2 * s.machine.fuel + 2 ≤ depth → 2 * s.machine.fuel + 2 ≤ depth' →
      again depth height body s = again depth' height body s) := by
  induction depth with
  | zero => exact ⟨fun _ _ _ h _ => by omega, fun _ _ _ _ h _ => by omega⟩
  | succ depth ih =>
    obtain ⟨hrun, hagain⟩ := ih
    constructor
    · intro depth' code s h h'
      obtain ⟨depth', rfl⟩ : ∃ n, depth' = n + 1 := ⟨depth' - 1, by omega⟩
      cases code with
      | nil => rfl
      | cons instr rest =>
        simp only [run]
        by_cases hfuel : s.machine.fuel = 0
        · rw [if_pos hfuel, if_pos hfuel]
        · rw [if_neg hfuel, if_neg hfuel]
          have hburn : s.burn.machine.fuel = s.machine.fuel - 1 := rfl
          have hstep : step (run depth) (again depth) instr s.burn =
              step (run depth') (again depth') instr s.burn := by
            apply step_congr
            · intro code t ht
              exact hrun depth' code t (by rw [ht, hburn]; omega) (by rw [ht, hburn]; omega)
            · intro height body t ht
              exact hagain depth' height body t (by rw [ht, hburn]; omega)
                (by rw [ht, hburn]; omega)
          have hkeeps := step_keeps (run_follows depth').1 (run_follows depth').2 instr s.burn
          rw [hstep]
          split
          · next t he =>
            rw [he] at hkeeps
            have hle : t.machine.fuel ≤ s.machine.fuel - 1 := hkeeps.fuel
            exact hrun depth' rest t (by omega) (by omega)
          · rfl
    · intro depth' height body s h h'
      obtain ⟨depth', rfl⟩ : ∃ n, depth' = n + 1 := ⟨depth' - 1, by omega⟩
      simp only [again]
      rw [hrun depth' body s (by omega) (by omega)]
      split
      · next t he =>
        -- Coming back to the start of the loop has cost at least one unit of fuel.
        have hlt : t.machine.fuel < s.machine.fuel := fuel_lt_of_branch he
        have hsame : (t.truncate height).machine.fuel = t.machine.fuel := rfl
        exact hagain depth' height body _ (by omega) (by omega)
      · rfl
      · rfl

/-! ### Runs by fuel alone -/

/-- Runs a listing with all the depth its fuel allows. -/
def exec (code : Code) (s : State) : Result := run (2 * s.machine.fuel + 1) code s

/-- Runs a loop with all the depth its fuel allows. -/
def looped (height : Nat) (body : Code) (s : State) : Result :=
  again (2 * s.machine.fuel + 2) height body s

/-- Goes on after a listing that reached its end. -/
def andThen (result : Result) (next : State → Result) : Result :=
  match result with
  | (.next, s) => next s
  | other => other

theorem run_eq_exec (h : 2 * s.machine.fuel + 1 ≤ depth) (code : Code) :
    run depth code s = exec code s :=
  (depth_irrelevant depth).1 _ code s h (Nat.le_refl _)

theorem again_eq_looped (h : 2 * s.machine.fuel + 2 ≤ depth) (height : Nat) (body : Code) :
    again depth height body s = looped height body s :=
  (depth_irrelevant depth).2 _ height body s h (Nat.le_refl _)

theorem exec_keeps (code : Code) (s : State) : Keeps s (exec code s) :=
  (run_follows _).1 code s

theorem looped_keeps (height : Nat) (body : Code) (s : State) : Keeps s (looped height body s) :=
  (run_follows _).2 height body s

@[simp] theorem exec_nil (s : State) : exec [] s = (.next, s) := rfl

theorem exec_cons (instr : Instr) (rest : Code) (s : State) :
    exec (instr :: rest) s =
      if s.machine.fuel = 0 then (.trap .outOfFuel, s)
      else andThen (step exec looped instr s.burn) (exec rest) := by
  simp only [exec, run]
  by_cases hfuel : s.machine.fuel = 0
  · rw [if_pos hfuel, if_pos hfuel]
  · rw [if_neg hfuel, if_neg hfuel]
    have hburn : s.burn.machine.fuel = s.machine.fuel - 1 := rfl
    have hstep : step (run (2 * s.machine.fuel)) (again (2 * s.machine.fuel)) instr s.burn =
        step exec looped instr s.burn := by
      apply step_congr
      · intro code t ht
        exact run_eq_exec (by rw [ht, hburn]; omega) code
      · intro height body t ht
        exact again_eq_looped (by rw [ht, hburn]; omega) height body
    have hkeeps := step_keeps exec_keeps looped_keeps instr s.burn
    rw [hstep]
    rcases hr : step exec looped instr s.burn with ⟨_ | _ | _ | _, t⟩
    · rw [hr] at hkeeps
      have hle : t.machine.fuel ≤ s.machine.fuel - 1 := hkeeps.fuel
      exact run_eq_exec (by omega) rest
    · rfl
    · rfl
    · rfl

theorem looped_eq (height : Nat) (body : Code) (s : State) :
    looped height body s =
      match exec body s with
      | (.branch 0, t) => looped height body (t.truncate height)
      | (.branch (label + 1), t) => (.branch label, t)
      | other => other := by
  rw [looped, again, run_eq_exec (Nat.le_refl _)]
  rcases hr : exec body s with ⟨_ | ⟨_ | label⟩ | _ | _, t⟩
  · rfl
  · have hlt : t.machine.fuel < s.machine.fuel := fuel_lt_of_branch hr
    have hsame : (t.truncate height).machine.fuel = t.machine.fuel := rfl
    exact again_eq_looped (by omega) height body
  · rfl
  · rfl
  · rfl

theorem exec_append (first second : Code) (s : State) :
    exec (first ++ second) s = andThen (exec first s) (exec second) := by
  induction first generalizing s with
  | nil => rfl
  | cons instr rest ih =>
    rw [cons_append, exec_cons, exec_cons]
    split
    · rfl
    · rcases step exec looped instr s.burn with ⟨_ | _ | _ | _, t⟩
      · exact ih t
      · rfl
      · rfl
      · rfl

theorem andThen_of_trap {reason : Trap} (h : result.1 = .trap reason) (next : State → Result) :
    andThen result next = result := by
  obtain ⟨flow, s⟩ := result
  obtain rfl : flow = .trap reason := h
  rfl

theorem andThen_nil (result : Result) : andThen result (exec []) = result := by
  obtain ⟨_ | _ | _ | _, s⟩ := result <;> rfl

theorem leaveBody_of_not_branch (h : ∀ depth, result.1 ≠ .branch depth) (atLabel : State → State) :
    leaveBody atLabel result = result := by
  obtain ⟨_ | depth | _ | _, s⟩ := result
  · rfl
  · exact absurd rfl (h depth)
  · rfl
  · rfl

/-- Runs atomic instructions one after another, fuel apart. -/
def straight : Code → State → Option State
  | [], s => some s
  | instr :: rest, s =>
    match step (fun _ t => (.next, t)) (fun _ _ t => (.next, t)) instr s with
    | (.next, t) => straight rest t
    | _ => none

/-- A listing that starts with atomic instructions runs out of fuel in them, or gets past them. -/
theorem exec_straight (hatomic : ∀ i ∈ code, i.isAtomic = true) {t : State}
    (h : straight code s = some t) (functions : List Func) (fuel : Nat) (rest : Code) :
    (fuel < code.length ∧ (exec (code ++ rest) (s.equip functions fuel)).1 = .trap .outOfFuel) ∨
      ∃ left, fuel = left + code.length ∧
        exec (code ++ rest) (s.equip functions fuel) = exec rest (t.equip functions left) := by
  induction code generalizing s fuel with
  | nil =>
    cases h
    exact .inr ⟨fuel, rfl, rfl⟩
  | cons i code ih =>
    have hi : i.isAtomic = true := hatomic i mem_cons_self
    rw [cons_append, exec_cons]
    rcases fuel with _ | fuel
    · exact .inl ⟨Nat.succ_pos _, rfl⟩
    · have hburn : (s.equip functions (fuel + 1)).burn = s.equip functions fuel := rfl
      rw [if_neg (by exact Nat.succ_ne_zero fuel), hburn, step_atomic exec _ looped _ hi]
      rw [straight] at h
      split at h
      · next u hu =>
        rcases ih (fun j hj => hatomic j (mem_cons_of_mem _ hj)) h fuel with ⟨hlt, hout⟩ | hpast
        · refine .inl ⟨Nat.succ_lt_succ hlt, ?_⟩
          rw [hu]
          exact hout
        · obtain ⟨left, hfuel, hexec⟩ := hpast
          refine .inr ⟨left, by rw [length_cons]; omega, ?_⟩
          rw [hu]
          exact hexec
      · cases h

end Exec

theorem Machine.call_eq (name : String) (args : List Word) :
    m.call name args =
      match m.function? name with
      | none => (.error (.unknownFunction name), m)
      | some fn => Exec.call Exec.exec m fn args := rfl

/-! ### Loaded functions -/

/-- After a unit is loaded, a function is found under its name if no other one has it. -/
theorem Machine.function?_load_of_unique (hfn : fn ∈ u.allFunctions)
    (hunique : ∀ other ∈ u.allFunctions, other.name = fn.name → other = fn) (m : Machine) :
    (m.load u).function? fn.name = some fn := by
  have hsome : (u.allFunctions.reverse.find? (·.name == fn.name)).isSome := by
    rw [find?_isSome]
    exact ⟨fn, mem_reverse.2 hfn, beq_self_eq_true _⟩
  obtain ⟨found, hfound⟩ := Option.isSome_iff_exists.1 hsome
  have hname := find?_some hfound
  have hmem : found ∈ u.allFunctions := mem_reverse.1 (mem_of_find?_eq_some hfound)
  obtain rfl := hunique found hmem (eq_of_beq hname)
  rw [Machine.function?, Machine.load, find?_append, hfound, Option.some_or]

/-- After a unit of distinct names is loaded, its functions are found under their names. -/
theorem Machine.function?_load (hnames : (u.allFunctions.map (·.name)).Nodup)
    (hfn : fn ∈ u.allFunctions) (m : Machine) : (m.load u).function? fn.name = some fn := by
  refine function?_load_of_unique hfn (fun other hother hname => ?_) m
  have hfind := find?_key_of_mem hnames hother
  rw [hname, find?_key_of_mem hnames hfn] at hfind
  exact (Option.some.inj hfind).symm

theorem Machine.functions_load (u : CompiledUnit) : (m.load u).functions =
      u.helpers.reverse ++ u.main :: (u.functions.reverse ++ m.functions) := by
  simp [Machine.load, CompiledUnit.allFunctions]

/-- Names as a source gives them keep the routines of a unit apart from every helper. -/
theorem Program.helper_free {program : Program} (hfuns : ∀ fn ∈ program.funs, Dollarless fn.name)
    (hclasses : ∀ cls ∈ program.classes, cls.name ≠ "" ∧ Dollarless cls.name) (helper : Helper) :
    helper.name ∉ program.routines.map (·.2) := by
  rw [program.routine_names, mem_append]
  rintro (hfun | hmethod)
  · obtain ⟨fn, hfn, hname⟩ := mem_map.1 hfun
    exact not_dollarless_helper helper (hname ▸ hfuns fn hfn)
  · obtain ⟨cls, hcls, hmethod⟩ := mem_flatMap.1 hmethod
    obtain ⟨method, -, hname⟩ := mem_map.1 hmethod
    obtain ⟨hne, hplain⟩ := hclasses cls hcls
    exact mangled_ne_helper hplain hne helper hname

namespace Compiled

variable {env : Environment} {program : Program} (h : Compiled config env program u)

include h

theorem find?_helper (hfn : fn ∈ u.helpers) (m : Machine) :
    (m.load u).functions.find? (·.name == fn.name) = some fn := by
  have hnames : (u.helpers.reverse.map (·.name)).Nodup := by
    rw [map_reverse]
    exact nodup_reverse.2 h.helper_names
  rw [m.functions_load, find?_append, find?_key_of_mem hnames (mem_reverse.2 hfn), Option.some_or]

theorem ne_mainName (hname : name ∈ u.functions.map (·.name)) : name ≠ mainName := by
  rintro rfl
  rw [h.names, program.routine_names, mem_append] at hname
  rcases hname with hfun | hmethod
  · exact h.main_free hfun
  · exact Program.not_dollarless_of_mem hmethod (by decide)

theorem find?_helpers_eq_none (hname : ∀ helper : Helper, helper.name ≠ name) :
    u.helpers.reverse.find? (·.name == name) = none := by
  refine find?_eq_none.2 fun fn hfn => ?_
  obtain ⟨helper, hhelper⟩ := h.helper_name (mem_reverse.1 hfn)
  simpa [hhelper] using hname helper

theorem function?_main : (m.load u).function? mainName = some u.main := by
  have hhelper : ∀ helper : Helper, helper.name ≠ mainName := by
    intro helper
    cases helper <;> decide
  rw [Machine.function?, m.functions_load, find?_append, h.find?_helpers_eq_none hhelper,
    Option.none_or]
  exact find?_cons_of_pos (by simpa using h.main_name)

theorem find?_routine (hfree : ∀ helper : Helper, helper.name ∉ program.routines.map (·.2))
    (hname : name ∈ u.functions.map (·.name)) (m : Machine) :
    (m.load u).functions.find? (·.name == name) = u.functions.reverse.find? (·.name == name) := by
  have hhelper : ∀ helper : Helper, helper.name ≠ name := by
    rintro helper rfl
    rw [h.names] at hname
    exact hfree helper hname
  have hmain : u.main.name ≠ name := by
    rw [h.main_name]
    exact (h.ne_mainName hname).symm
  have hfound : (u.functions.reverse.find? (·.name == name)).isSome := by
    obtain ⟨fn, hfn, rfl⟩ := mem_map.1 hname
    exact find?_isSome.2 ⟨fn, mem_reverse.2 hfn, beq_self_eq_true _⟩
  rw [m.functions_load, find?_append, h.find?_helpers_eq_none hhelper, Option.none_or,
    find?_cons_of_neg (by simpa using hmain), find?_append, Option.or_of_isSome hfound]

/-- Among the functions of a compiled unit, those with plain names have names of their own. -/
theorem nodup_plain_names (hfuns : (program.funs.map (·.name)).Nodup) :
    ((u.allFunctions.map (·.name)).filter (Dollarless ·)).Nodup := by
  have hmethods : program.methodNames.filter (Dollarless ·) = [] := by
    refine filter_eq_nil_iff.2 fun name hname => ?_
    simpa using Program.not_dollarless_of_mem hname
  have hhelpers : (u.helpers.map (·.name)).filter (Dollarless ·) = [] := by
    refine filter_eq_nil_iff.2 fun name hname => ?_
    obtain ⟨fn, hfn, rfl⟩ := mem_map.1 hname
    obtain ⟨helper, hhelper⟩ := h.helper_name hfn
    simpa [hhelper] using not_dollarless_helper helper
  have hmain : [mainName].filter (Dollarless ·) = [mainName] := by decide
  rw [CompiledUnit.allFunctions, map_append, map_append, h.names, Program.routine_names,
    map_cons, map_nil, h.main_name, filter_append, filter_append,
    filter_append, hmethods, hhelpers, hmain, append_nil, append_nil]
  refine (hfuns.filter _).append (nodup_singleton mainName) ?_
  rw [disjoint_singleton]
  exact fun hmem => h.main_free (mem_of_mem_filter hmem)

theorem function?_load (hfuns : (program.funs.map (·.name)).Nodup) (hfn : fn ∈ u.allFunctions)
    (hplain : Dollarless fn.name) (m : Machine) : (m.load u).function? fn.name = some fn := by
  refine function?_load_of_unique hfn (fun other hother hname => ?_) m
  have hnodup := h.nodup_plain_names hfuns
  rw [filter_map] at hnodup
  refine inj_on_of_nodup_map hnodup ?_ ?_ hname
  · simpa [hother, hname] using hplain
  · simpa [hfn] using hplain

end Compiled

theorem Machine.functions_of_start? {m : Machine} (h : Machine.start? config = .ok m) :
    m.functions = [] := by
  rw [Machine.start?] at h
  split at h
  · cases h
  · split at h
    · cases h
    · cases h
      rfl

/-- The outcome of a unit's top level on a fresh machine, and the lines it printed. -/
def outcome? (config : Config) (program : Program) :
    Option (Except Trap Word × List String) := do
  let u ← (compile config {} program).toOption
  let m ← (Machine.start? config).toOption
  return ((m.runMain u).1, (m.runMain u).2.output.toList)

theorem outcome?_eq_some_iff {program : Program} {outcome : Except Trap Word × List String} :
    outcome? config program = some outcome ↔
      ∃ u m, compile config {} program = .ok u ∧ Machine.start? config = .ok m ∧
        ((m.runMain u).1, (m.runMain u).2.output.toList) = outcome := by
  rw [outcome?]
  cases compile config {} program with
  | error => simp [Except.toOption]
  | ok u =>
    cases Machine.start? config with
    | error => simp [Except.toOption]
    | ok m => simp [Except.toOption]

end TypedWasm
