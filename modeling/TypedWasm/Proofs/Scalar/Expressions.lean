import TypedWasm.Proofs.CallSites
import TypedWasm.Proofs.Scalar.Lowered
import TypedWasm.Proofs.Scalar.Simulation

/-!
# Scalar expressions

The code of an expression leaves the value the interpreter gives, and touches neither the frame nor
the stack below. Calls are assumed to do what the interpreter says, on less fuel.
-/

namespace TypedWasm.Scalar

open Exec List Lower Lowering

variable {name : String} {code : Code}

/-- Code that leaves the value of a computation on the stack. -/
def Computes (b : Body) (fuel : Nat) (code : Code) (eval : Nat → Eval Word) : Prop :=
  ∀ world m frame stack, b.Running world m frame → m.fuel ≤ fuel →
    Shows b.context.env b.functions (fun bound => eval bound world)
      (fun word => Leaves b frame (word :: stack))
      (exec code ⟨m, frame, stack⟩)

section Constructs

variable {b : Body} {fuel : Nat} {arg : Nat → Eval Word} {op : BinaryOp}

theorem computes_literal {value : Literal} {word : Word} (h : literalWord? value = some word) :
    Computes b fuel [.const word] fun _ => Eval.ofOption (literalWord? value) := by
  intro world m frame stack hrunning _
  refine .atom word hrunning (fun _ => ?_) rfl
  rw [h]
  rfl

theorem computes_local (hname : name ∈ b.names) :
    Computes b fuel [.localGet name] fun _ => read name := by
  intro world m frame stack hrunning _
  obtain ⟨word, hread, hget⟩ := hrunning.readLocal hname
  refine .atom word hrunning (fun _ => read_of hread) ?_
  simp only [step, hget, State.push]

theorem computes_global (hname : name ∉ b.names) {address : UInt32}
    (haddress : b.context.env.globalAddress name = .ok address) :
    Computes b fuel [.constU address, .load 0] fun _ => read name := by
  intro world m frame stack hrunning _
  refine .cons fun _ => ?_
  show Shows _ _ _ _ (exec [.load 0] ⟨spent m, frame, Word.ofUInt32 address :: stack⟩)
  obtain ⟨word, hread, hload⟩ := hrunning.spent.spent.readGlobal hname haddress
  refine .atom word hrunning.spent (fun _ => read_of hread) ?_
  simp only [step, hload]

theorem leaves_not_branch {frame : Frame} {stack : List Word} {world : World} {result : Result}
    (h : Leaves b frame stack world result) (depth : Nat) : result.1 ≠ .branch depth := by
  obtain ⟨m, rfl, -⟩ := h
  exact fun hbranch => by cases hbranch

variable {left right : Nat → Eval Word} {leftCode rightCode : Code}

theorem computes_logic (hop : op = .and ∨ op = .or) (hleft : Computes b fuel leftCode left)
    (hright : Computes b fuel rightCode right) :
    Computes b fuel (operatorCode op leftCode rightCode) fun bound =>
      binary op (left bound) (right bound) := by
  intro world m frame stack hrunning hfuel
  rcases hop with rfl | rfl <;>
    refine (hleft world m frame stack hrunning hfuel).push fun word world' m' hle hrunning' =>
      ?_ <;>
    refine .cond (fun _ _ _ => leaves_not_branch) ?_ <;>
    by_cases hzero : word = 0 <;>
    simp only [hzero, ne_eq, not_true_eq_false, not_false_eq_true, if_false, if_true,
      toInt_eq_zero_iff]
  · exact .atom _ hrunning'.spent (fun _ => rfl) rfl
  · exact hright world' _ frame stack hrunning'.spent (by simp only [spent]; omega)
  · exact hright world' _ frame stack hrunning'.spent (by simp only [spent]; omega)
  · exact .atom _ hrunning'.spent (fun _ => rfl) rfl

theorem computes_arithmetic (hand : op ≠ .and) (hor : op ≠ .or)
    (hleft : Computes b fuel leftCode left) (hright : Computes b fuel rightCode right) :
    Computes b fuel (leftCode ++ rightCode ++ [.numeric (nativeOp op)]) (fun bound => do
      let first ← left bound
      let second ← right bound
      Eval.ofResult (operate op first.toInt second.toInt)) := by
  intro world m frame stack hrunning hfuel
  rw [append_assoc]
  refine (hleft world m frame stack hrunning hfuel).push fun first world₁ m₁ hle₁ hrunning₁ => ?_
  refine (hright world₁ m₁ frame _ hrunning₁ (by omega)).push fun second world₂ m₂ hle₂
    hrunning₂ => ?_
  refine .numeric hrunning₂ fun _ => ?_
  rw [numeric_nativeOp hand hor]
  rfl

theorem computes_operator (op : BinaryOp) (hleft : Computes b fuel leftCode left)
    (hright : Computes b fuel rightCode right) :
    Computes b fuel (operatorCode op leftCode rightCode) fun bound =>
      binary op (left bound) (right bound) := by
  cases op with
  | and => exact computes_logic (.inl rfl) hleft hright
  | or => exact computes_logic (.inr rfl) hleft hright
  | _ => exact computes_arithmetic (by decide) (by decide) hleft hright

theorem computes_unary (op : UnaryOp) {operand : Nat → Eval Word}
    (h : Computes b fuel code operand) : Computes b fuel (unaryCode op code) (fun bound => do
      return operateUnary op (← operand bound)) := by
  intro world m frame stack hrunning hfuel
  cases op with
  | neg =>
    refine .cons fun _ => ?_
    show Shows _ _ _ _ (exec (code ++ [.sub]) ⟨spent m, frame, 0 :: stack⟩)
    have hless : (spent m).fuel ≤ fuel := by simp only [spent]; omega
    refine (h world _ frame (0 :: stack) hrunning.spent hless).push fun word world' m' _
      hrunning' => ?_
    refine .numeric hrunning' fun _ => ?_
    rw [← sub_eq_neg]
    rfl
  | not =>
    refine (h world m frame stack hrunning hfuel).push fun word world' m' _ hrunning' => ?_
    refine .atom _ hrunning' (fun _ => rfl) ?_
    simp only [step, eqz_eq_not]

theorem computes_abs (h : Computes b fuel code arg) :
    Computes b fuel (code ++ [.callIntrinsic .abs]) (fun bound => do
      return Word.ofInt (← arg bound).toInt.natAbs) := by
  intro world m frame stack hrunning hfuel
  refine (h world m frame stack hrunning hfuel).push fun word world' m' _ hrunning' => ?_
  exact .host [word] hrunning'.spent rfl (host_abs _ word) fun _ => rfl

theorem computes_print {ty : Ty} {printer : Intrinsic} (hprinter : printerOf? ty = some printer)
    (h : Computes b fuel code arg) :
    Computes b fuel (code ++ [.callIntrinsic printer]) fun bound => printed ty (arg bound) := by
  intro world m frame stack hrunning hfuel
  refine (h world m frame stack hrunning hfuel).push fun word world' m' _ hrunning' => ?_
  obtain ⟨line, hline, hhost⟩ := host_print (spent m') hprinter word
  refine .host [word] (hrunning'.spent.print line) ?_ hhost fun _ => ?_
  · cases ty <;> cases hprinter <;> rfl
  · rw [hline]
    rfl

theorem computes_builtin2 (name : Builtin2) (hleft : Computes b fuel leftCode left)
    (hright : Computes b fuel rightCode right) :
    Computes b fuel (leftCode ++ rightCode ++ [.callIntrinsic (builtin2Intrinsic name)])
      (fun bound => do
        let first ← left bound
        let second ← right bound
        return builtin2Word name first second) := by
  intro world m frame stack hrunning hfuel
  rw [append_assoc]
  refine (hleft world m frame stack hrunning hfuel).push fun first world₁ m₁ hle₁ hrunning₁ => ?_
  refine (hright world₁ m₁ frame _ hrunning₁ (by omega)).push fun second world₂ m₂
    hle₂ hrunning₂ => ?_
  refine .host [first, second] hrunning₂.spent ?_ (host_builtin2 _ name first second) fun _ => rfl
  cases name <;> rfl

end Constructs

/-- Code that leaves the values of a computation on the stack, the last on top. -/
def ComputesAll (b : Body) (fuel : Nat) (code : Code) (count : Nat)
    (eval : Nat → Eval (List Word)) : Prop :=
  ∀ world m frame stack, b.Running world m frame → m.fuel ≤ fuel →
    Shows b.context.env b.functions (fun bound => eval bound world)
      (fun words world' result =>
        words.length = count ∧ Leaves b frame (words.reverse ++ stack) world' result)
      (exec code ⟨m, frame, stack⟩)

structure Loaded (program : Program) (context : Context) (functions : List Func) : Prop where
  native : context.config.bigNumbers = false
  planned : context.env.Planned
  distinct : (program.funs.map (·.name)).Nodup
  callable : ∀ name ∈ context.callables, Dollarless name → name ∈ program.funs.map (·.name)
  lowered : ∀ fn ∈ program.funs, ∃ func later,
    (Lowering.function fn fn.name).run context {} = (.ok func, later) ∧
      functions.find? (·.name == fn.name) = some func

/-- A call on less than the given fuel ends as the interpreter says, with the locals of its caller
untouched. -/
def CallsShow (program : Program) (env : Environment) (functions : List Func) (fuel : Nat) : Prop :=
  ∀ fn ∈ program.funs, ∀ func, functions.find? (·.name == fn.name) = some func →
    ∀ args world m, args.length = fn.parameters.length → m.fuel < fuel →
      Settled env functions world m →
      (Exec.call exec m func args).1 = .error .outOfFuel ∨
        ∃ world', Ends (fun bound => invoke program bound fn.name args world)
            ((Exec.call exec m func args).1, world') ∧
          Settled env functions world' (Exec.call exec m func args).2 ∧
          world'.locals = world.locals ∧ world'.latest = world.latest

section Calls

variable {program : Program} {b : Body} {fuel : Nat} {functions : List Func} {context : Context}
  {fn : FunDef} {count : Nat}

theorem Loaded.exists_function (h : Loaded program context functions) (hfn : fn ∈ program.funs) :
    ∃ func, functions.find? (·.name == fn.name) = some func ∧
      func.params.length = fn.parameters.length := by
  obtain ⟨func, later, hrun, hfind⟩ := h.lowered fn hfn
  obtain ⟨_, _, _, _, _, _, rfl, -⟩ := Lowering.Body.run_eq_ok_iff.1 hrun
  exact ⟨_, hfind, length_map _⟩

theorem Loaded.exists_callee (h : Loaded program context functions)
    (hname : name ∈ context.callables) (hplain : Dollarless name)
    (hcount : program.arityOf name = count) :
    ∃ fn ∈ program.funs, fn.name = name ∧ fn.parameters.length = count := by
  obtain ⟨fn, hfn, rfl⟩ := mem_map.1 (h.callable name hname hplain)
  have hkeys : ((program.funs.map fun fn => (fn, fn.name)).map (·.2)).Nodup := by
    rw [map_map]
    exact h.distinct
  have hmem : (fn, fn.name) ∈ program.funs.map fun fn => (fn, fn.name) := mem_map_of_mem hfn
  refine ⟨fn, hfn, rfl, ?_⟩
  rw [← hcount, Program.arityOf, Program.routines, find?_append, find?_key_of_mem hkeys hmem]
  rfl

theorem computesAll_nil : ComputesAll b fuel [] 0 fun _ => return [] := by
  intro world m frame stack hrunning _
  exact .value (.always fun _ => rfl) ⟨rfl, m, rfl, hrunning⟩

theorem computesAll_cons {codes : Code} {first : Nat → Eval Word}
    {rest : Nat → Eval (List Word)} (hfirst : Computes b fuel code first)
    (hrest : ComputesAll b fuel codes count rest) :
    ComputesAll b fuel (code ++ codes) (count + 1) (fun bound => do
      let word ← first bound
      return word :: (← rest bound)) := by
  intro world m frame stack hrunning hfuel
  refine (hfirst world m frame stack hrunning hfuel).push fun word world₁ m₁ hle hrunning₁ => ?_
  refine (hrest world₁ m₁ frame (word :: stack) hrunning₁ (by omega)).bind (fun _ _ => rfl) ?_
  rintro words world₂ ⟨hlength, m₂, hresult, hrunning₂⟩
  refine .value (.always fun _ => rfl) ⟨by rw [length_cons, hlength], m₂, ?_, hrunning₂⟩
  rw [hresult, reverse_cons, append_assoc]
  rfl

variable (hloaded : Loaded program b.context b.functions)
  (hcalls : CallsShow program b.context.env b.functions fuel)
include hloaded hcalls

theorem computes_call {fn : FunDef} (hfn : fn ∈ program.funs)
    {args : Nat → Eval (List Word)} (hargs : ComputesAll b fuel code fn.parameters.length args) :
    Computes b fuel (code ++ [.callUser fn.name]) (fun bound => do
      invoke program bound fn.name (← args bound)) := by
  intro world m frame stack hrunning hfuel
  obtain ⟨func, hfind, hparams⟩ := hloaded.exists_function hfn
  rw [exec_append]
  refine (hargs world m frame stack hrunning hfuel).bind (fun _ h => andThen_of_trap h _) ?_
  rintro words world₁ ⟨hlength, m₁, hresult, hrunning₁⟩
  have hle : m₁.fuel ≤ m.fuel := fuel_le_of_exec hresult
  rw [hresult]
  show Shows _ _ _ _ (exec [.callUser fn.name] ⟨m₁, frame, words.reverse ++ stack⟩)
  refine .single fun hne => ?_
  show Shows _ _ _ _ (callNamed exec fn.name ⟨spent m₁, frame, words.reverse ++ stack⟩)
  have hfunction : (spent m₁).function? fn.name = some func := by
    rw [Machine.function?, hrunning₁.spent.settled.functions, hfind]
  have hless : (spent m₁).fuel < fuel := by
    have hpositive : m₁.fuel ≠ 0 := hne
    simp only [spent]
    omega
  have hshows :=
    hcalls fn hfn func hfind words world₁ (spent m₁) hlength hless hrunning₁.spent.settled
  simp only [callNamed, hfunction, hparams, ← hlength, popArgs?_reverse_append]
  generalize Exec.call exec (spent m₁) func words = effect at hshows
  obtain ⟨result, m₂⟩ := effect
  rcases hshows with hcut | ⟨world₂, hends, hsettled, hlocals, hlatest⟩
  · obtain rfl : result = .error .outOfFuel := hcut
    exact .cut rfl
  · cases result with
    | error reason => exact .trap rfl hends hsettled
    | ok word =>
      refine .value hends ⟨m₂, rfl, hsettled, hrunning₁.bound.of_locals hlocals hlatest, ?_⟩
      rw [hlocals]
      exact hrunning₁.declared

end Calls

mutual

/-- **Expressions.** The code of a scalar expression computes what the interpreter says. -/
theorem expr_computes (hloaded : Loaded program b.context b.functions)
    (hcalls : CallsShow program b.context.env b.functions fuel) :
    (e : Expr) → e.isScalar = true → (∀ name ∈ e.identifiers, Dollarless name) →
    Passes program.arityOf b.scope e.callSites → ∀ {progress later : Progress} {code : Code},
      (Lowering.expr e).run b.scope progress = (.ok code, later) →
      Computes b fuel code fun bound => expr (invoke program bound) e := by
  intro e hscalar hnames hpasses progress later code hrun
  have hnative : b.scope.config.bigNumbers = false := hloaded.native
  cases e with
  | literal ty value =>
    obtain ⟨word, hword, rfl⟩ := literal_code hnative hscalar hrun
    exact computes_literal hword
  | id ty name =>
    rcases nameValue_code hrun with ⟨hlocal, rfl⟩ | ⟨hglobal, address, haddress, rfl⟩
    · exact computes_local (Body.isLocal_iff.1 hlocal)
    · exact computes_global (fun hmem => hglobal (Body.isLocal_iff.2 hmem)) haddress
  | binary ty op left right =>
    simp only [Expr.isScalar, Bool.and_eq_true] at hscalar
    obtain ⟨⟨⟨hleftTy, -⟩, hleft⟩, hright⟩ := hscalar
    obtain ⟨hnamesLeft, hnamesRight⟩ := forall_mem_append.1 hnames
    obtain ⟨hpassesLeft, hpassesRight⟩ := passes_append.1 hpasses
    obtain ⟨leftCode, middle, rightCode, hrunLeft, hrunRight, rfl⟩ :=
      binary_code hnative hleftTy hrun
    exact computes_operator op
      (expr_computes hloaded hcalls left hleft hnamesLeft hpassesLeft hrunLeft)
      (expr_computes hloaded hcalls right hright hnamesRight hpassesRight hrunRight)
  | unary ty op operand =>
    simp only [Expr.isScalar, Bool.and_eq_true] at hscalar
    obtain ⟨operandCode, hrunOperand, rfl⟩ := unary_code hnative hrun
    exact computes_unary op
      (expr_computes hloaded hcalls operand hscalar.2 hnames hpasses hrunOperand)
  | call ty name args =>
    obtain ⟨hplain, hnamesArgs⟩ := forall_mem_cons.1 hnames
    obtain ⟨hcount, hpassesArgs⟩ := passes_cons.1 hpasses
    obtain ⟨argsCode, hrunArgs, hcallable, rfl⟩ := call_code hrun
    obtain ⟨fn, hfn, rfl, hparams⟩ := hloaded.exists_callee hcallable hplain (hcount hcallable)
    have hargs := exprs_computes hloaded hcalls args hscalar hnamesArgs hpassesArgs hrunArgs
    exact computes_call hloaded hcalls hfn (hparams ▸ hargs)
  | builtin1 ty name arg =>
    cases name with
    | print =>
      simp only [Expr.isScalar, Bool.and_eq_true] at hscalar
      obtain ⟨argCode, _, printer, hrunArg, hprinter, rfl⟩ := print_code hnative hscalar.1 hrun
      exact computes_print hprinter
        (expr_computes hloaded hcalls arg hscalar.2 hnames hpasses hrunArg)
    | abs =>
      obtain ⟨argCode, _, hrunArg, rfl⟩ := abs_code hnative hrun
      exact computes_abs (expr_computes hloaded hcalls arg hscalar hnames hpasses hrunArg)
    | len => cases hscalar
  | builtin2 ty name left right =>
    simp only [Expr.isScalar, Bool.and_eq_true] at hscalar
    obtain ⟨hnamesLeft, hnamesRight⟩ := forall_mem_append.1 hnames
    obtain ⟨hpassesLeft, hpassesRight⟩ := passes_append.1 hpasses
    obtain ⟨leftCode, _, rightCode, _, hrunLeft, hrunRight, rfl⟩ := builtin2_code hnative hrun
    exact computes_builtin2 name
      (expr_computes hloaded hcalls left hscalar.1 hnamesLeft hpassesLeft hrunLeft)
      (expr_computes hloaded hcalls right hscalar.2 hnamesRight hpassesRight hrunRight)
  | _ => cases hscalar

theorem exprs_computes (hloaded : Loaded program b.context b.functions)
    (hcalls : CallsShow program b.context.env b.functions fuel) :
    (es : List Expr) →
    Expr.allScalar es = true → (∀ name ∈ Expr.allIdentifiers es, Dollarless name) →
    Passes program.arityOf b.scope (Expr.allCallSites es) →
    ∀ {progress later : Progress} {code : Code},
      (Lowering.exprs es).run b.scope progress = (.ok code, later) →
      ComputesAll b fuel code es.length fun bound => exprs (invoke program bound) es := by
  intro es hscalar hnames hpasses progress later code hrun
  cases es with
  | nil =>
    obtain ⟨rfl, -⟩ := pure_eq_ok_iff.1 hrun
    exact computesAll_nil
  | cons first rest =>
    simp only [Expr.allScalar, Bool.and_eq_true] at hscalar
    obtain ⟨hnamesFirst, hnamesRest⟩ := forall_mem_append.1 hnames
    obtain ⟨hpassesFirst, hpassesRest⟩ := passes_append.1 hpasses
    simp only [Lowering.exprs, bind_eq_ok_iff, pure_eq_ok_iff] at hrun
    obtain ⟨firstCode, _, hrunFirst, restCode, _, hrunRest, rfl, rfl⟩ := hrun
    exact computesAll_cons
      (expr_computes hloaded hcalls first hscalar.1 hnamesFirst hpassesFirst hrunFirst)
      (exprs_computes hloaded hcalls rest hscalar.2 hnamesRest hpassesRest hrunRest)

end

end TypedWasm.Scalar
