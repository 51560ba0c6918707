import TypedWasm.Proofs.Renamed.Bodies
import TypedWasm.Proofs.Scalar.Expressions

/-!
# Scalar statements

The code of a statement ends as the interpreter says: at its end with the stack as it was, or at a
return with the returned word on top. A loop is shown by induction on the fuel left when its body
starts again.
-/

namespace TypedWasm.Scalar

open Exec List Lower Lowering

/-- A listing ended at a return with a word on top of the stack. -/
def Returns (b : Body) (word : Word) (world : World) (result : Result) : Prop :=
  ∃ s rest, result = (.ret, s) ∧ s.stack = word :: rest ∧
    Settled b.context.env b.functions world s.machine

/-- A listing ended as a statement did. -/
def Completed (b : Body) (stack : List Word) (completion : Completion) (world : World)
    (result : Result) : Prop :=
  match completion with
  | .next => ∃ frame, Leaves b frame stack world result
  | .returned word => Returns b word world result

/-- Code that ends as a statement does. -/
def Acts (b : Body) (fuel : Nat) (code : Code) (eval : Nat → Eval Completion) : Prop :=
  ∀ world m frame stack, b.Running world m frame → m.fuel ≤ fuel →
    Shows b.context.env b.functions (fun bound => eval bound world) (Completed b stack)
      (exec code ⟨m, frame, stack⟩)

section Constructs

variable {world : World} {m : Machine} {frame : Frame} {bodyCode : Code}
  {body : Nat → Eval Completion} {progress later : Progress} {stack : List Word} {target : Pattern}
  {result : Result}

variable {b : Body} {fuel : Nat} {code : Code} {value : Nat → Eval Word}

theorem completed_not_branch {completion : Completion}
    (h : Completed b stack completion world result) (depth : Nat) : result.1 ≠ .branch depth := by
  cases completion with
  | next =>
    obtain ⟨frame, hleaves⟩ := h
    exact leaves_not_branch hleaves depth
  | returned word =>
    obtain ⟨s, rest, rfl, -⟩ := h
    exact fun hbranch => by cases hbranch

theorem Shows.finish {eval : Nat → Option (Except Trap Completion × World)}
    (hrunning : b.Running world m frame) (heval : ∀ bound, eval bound = some (.ok .next, world))
    (hresult : result = (.next, ⟨m, frame, stack⟩)) :
    Shows b.context.env b.functions eval (Completed b stack) result :=
  .value (.always heval) ⟨frame, m, hresult, hrunning⟩

theorem acts_nil : Acts b fuel [] fun _ => return .next := by
  intro world m frame stack hrunning _
  exact .finish hrunning (fun _ => rfl) rfl

theorem acts_append {codes : Code} {first next : Nat → Eval Completion}
    (hfirst : Acts b fuel code first) (hnext : Acts b fuel codes next) :
    Acts b fuel (code ++ codes) fun bound => Completion.andThen (first bound) (next bound) := by
  intro world m frame stack hrunning hfuel
  rw [exec_append]
  refine (hfirst world m frame stack hrunning hfuel).bind (fun _ h => andThen_of_trap h _) ?_
  intro completion world₁ hcompleted
  cases completion with
  | next =>
    obtain ⟨frame₁, m₁, hresult, hrunning₁⟩ := hcompleted
    have hle : m₁.fuel ≤ m.fuel := fuel_le_of_exec hresult
    rw [hresult]
    exact hnext world₁ m₁ frame₁ stack hrunning₁ (by omega)
  | returned word =>
    obtain ⟨s, rest, hresult, hreturns⟩ := hcompleted
    rw [hresult]
    exact .value (.always fun _ => rfl) ⟨s, rest, rfl, hreturns⟩

theorem acts_return (h : Computes b fuel code value) :
    Acts b fuel (code ++ [.ret]) (fun bound => do return .returned (← value bound)) := by
  intro world m frame stack hrunning hfuel
  refine (h world m frame stack hrunning hfuel).push fun word world₁ m₁ _ hrunning₁ => ?_
  refine .single fun _ => .value (.always fun _ => rfl) ?_
  exact ⟨_, stack, rfl, rfl, hrunning₁.spent.settled⟩

theorem acts_expr (h : Computes b fuel code value) :
    Acts b fuel (code ++ [.localSet scratchLocal]) (fun bound => do
      keep (← value bound)
      return .next) := by
  intro world m frame stack hrunning hfuel
  refine (h world m frame stack hrunning hfuel).push fun word world₁ m₁ _ hrunning₁ => ?_
  obtain ⟨frame₁, hset, hbound⟩ := hrunning₁.bound.setScratch word
  have hrunning₂ : b.Running { world₁ with latest := word } (spent m₁) frame₁ :=
    ⟨hrunning₁.spent.settled.of_globals rfl rfl, hbound, hrunning₁.declared⟩
  refine .single fun _ => .finish hrunning₂ (fun _ => rfl) ?_
  simp only [step, State.burn, hset, spent]

theorem pattern_acts (hplan : b.context.env.Planned) {source : String}
    (htarget : target.scalarTarget?.isSome = true)
    (hrun : (pattern target source).run b.scope progress = (.ok code, later))
    (hrunning : b.Running world m frame) {word : Word} (hsource : frame.get? source = some word)
    (stack : List Word) :
    Shows b.context.env b.functions
      (fun _ => (do assign target word; return .next : Eval Completion) world)
      (Completed b stack) (exec code ⟨m, frame, stack⟩) := by
  obtain ⟨name?, hname?⟩ := Option.isSome_iff_exists.1 htarget
  rcases pattern_code hname? hrun with ⟨rfl, rfl⟩ | ⟨name, rfl, ⟨hlocal, rfl⟩ | hglobal⟩
  · refine .finish hrunning (fun _ => ?_) rfl
    simp only [assign, hname?]
    rfl
  · obtain ⟨world₁, frame₁, hwrite, hset, hrunning₁⟩ :=
      hrunning.writeLocal (Body.isLocal_iff.1 hlocal) word
    refine .cons fun _ => ?_
    simp only [step, State.burn, hsource, State.push, andThen]
    refine .single fun _ => .finish hrunning₁.spent.spent (fun _ => ?_) ?_
    · simp only [assign, hname?]
      exact Eval.bind_ok (write_of hwrite)
    · simp only [step, State.burn, hset, spent]
  · obtain ⟨hnot, address, haddress, rfl⟩ := hglobal
    obtain ⟨world₁, m₁, hwrite, hstore, hrunning₁⟩ :=
      hrunning.spent.spent.spent.writeGlobal hplan (fun hmem => hnot (Body.isLocal_iff.2 hmem))
        haddress word
    refine .cons fun _ => .cons fun _ => ?_
    simp only [step, State.burn, hsource, State.push, andThen]
    refine .single fun _ => .finish hrunning₁ (fun _ => ?_) ?_
    · simp only [assign, hname?]
      exact Eval.bind_ok (write_of hwrite)
    · simp only [spent] at hstore
      simp only [step, State.burn, hstore]

theorem acts_cond {thenCode elseCode : Code} {thenEval elseEval : Nat → Eval Completion}
    (htest : Computes b fuel code value) (hthen : Acts b fuel thenCode thenEval)
    (helse : Acts b fuel elseCode elseEval) :
    Acts b fuel (code ++ [.cond false thenCode elseCode]) (fun bound => do
      if (← value bound).toInt = 0 then elseEval bound else thenEval bound) := by
  intro world m frame stack hrunning hfuel
  refine (htest world m frame stack hrunning hfuel).push fun word world₁ m₁ hle hrunning₁ => ?_
  refine .cond (fun _ _ _ => completed_not_branch) ?_
  have hless : (spent m₁).fuel ≤ fuel := by simp only [spent]; omega
  by_cases hzero : word = 0
  · simp only [hzero, ne_eq, not_true_eq_false, if_false, toInt_eq_zero_iff, if_true]
    exact helse world₁ _ frame stack hrunning₁.spent hless
  · simp only [hzero, ne_eq, not_false_eq_true, if_true, toInt_eq_zero_iff, if_false]
    exact hthen world₁ _ frame stack hrunning₁.spent hless

theorem acts_assign (hplan : b.context.env.Planned) (htarget : target.scalarTarget?.isSome = true)
    {index : Nat} (hindex : index < b.temps) (h : Computes b fuel code value)
    {assigned : Code}
    (hrun : (pattern target (tempName index)).run b.scope progress = (.ok assigned, later)) :
    Acts b fuel (code ++ [.localSet (tempName index)] ++ assigned) (fun bound => do
      assign target (← value bound)
      return .next) := by
  intro world m frame stack hrunning hfuel
  rw [append_assoc]
  refine (h world m frame stack hrunning hfuel).push fun word world₁ m₁ _ hrunning₁ => ?_
  obtain ⟨frame₁, hset, hbound, hsource⟩ := hrunning₁.bound.setTemp hindex word
  refine .cons fun _ => ?_
  simp only [step, State.burn, hset, andThen]
  exact pattern_acts hplan htarget hrun ⟨hrunning₁.spent.settled, hbound, hrunning₁.declared⟩
    hsource stack

/-- One round of a loop: nothing if the test fails, and else how the body ends. -/
def once (test : Eval Word) (body : Eval Completion) : Eval (Option Completion) := do
  if (← test).toInt = 0 then return none else return some (← body)

/-- What follows a round. -/
def afterRound (again : Eval Completion) : Option Completion → Eval Completion
  | none => return .next
  | some .next => again
  | some done => return done

theorem repeatWhile_succ (test : Eval Word) (body : Eval Completion) (bound : Nat) :
    repeatWhile test body (bound + 1) =
      once test body >>= afterRound (repeatWhile test body bound) := by
  rw [once, Eval.bind_assoc, repeatWhile]
  congr 1
  funext word
  by_cases hzero : word.toInt = 0
  · rw [if_pos hzero, if_pos hzero]
    rfl
  · rw [if_neg hzero, if_neg hzero, Eval.bind_assoc, Completion.andThen]
    congr 1
    funext completion
    cases completion <;> rfl

/-- The code of a loop, from the test to the jump back. -/
def roundCode (test body : Code) : Code := test ++ [.eqz, .brIf 1] ++ body ++ [.br 0]

/-- A round ended at the jump out of the loop, at the jump back to its start, or at a return. -/
def Round (b : Body) (stack : List Word) (outcome : Option Completion) (world : World)
    (result : Result) : Prop :=
  match outcome with
  | none => ∃ m frame, result = (.branch 1, ⟨m, frame, stack⟩) ∧ b.Running world m frame
  | some .next => ∃ m frame, result = (.branch 0, ⟨m, frame, stack⟩) ∧ b.Running world m frame
  | some (.returned word) => Returns b word world result

section Loops

variable (htest : Computes b fuel code value) (hbody : Acts b fuel bodyCode body)
include htest hbody

theorem once_shows (hrunning : b.Running world m frame) (hfuel : m.fuel ≤ fuel)
    (stack : List Word) :
    Shows b.context.env b.functions (fun bound => once (value bound) (body bound) world)
      (Round b stack) (exec (roundCode code bodyCode) ⟨m, frame, stack⟩) := by
  rw [roundCode, append_assoc, append_assoc]
  refine (htest world m frame stack hrunning hfuel).push fun word world₁ m₁ hle hrunning₁ => ?_
  refine .cons fun _ => .cons fun _ => ?_
  by_cases hzero : word = 0
  · simp only [hzero, toInt_eq_zero_iff, if_true]
    exact .value (.always fun _ => rfl) ⟨spent (spent m₁), frame, rfl, hrunning₁.spent.spent⟩
  · simp only [toInt_eq_zero_iff, hzero, if_false]
    show Shows _ _ _ _ (exec (bodyCode ++ [.br 0]) ⟨spent (spent m₁), frame, stack⟩)
    have hless : (spent (spent m₁)).fuel ≤ fuel := by simp only [spent]; omega
    rw [exec_append]
    refine (hbody world₁ _ frame stack hrunning₁.spent.spent hless).bind
      (fun _ h => andThen_of_trap h _) ?_
    intro completion world₂ hcompleted
    cases completion with
    | next =>
      obtain ⟨frame₂, m₂, hresult, hrunning₂⟩ := hcompleted
      rw [hresult]
      refine .single fun _ => .value (.always fun _ => rfl) ?_
      exact ⟨spent m₂, frame₂, rfl, hrunning₂.spent⟩
    | returned word =>
      obtain ⟨s, rest, hresult, hreturns⟩ := hcompleted
      rw [hresult]
      exact .value (.always fun _ => rfl) ⟨s, rest, rfl, hreturns⟩

/-- A loop ended at the jump out of it, or at a return. -/
def Left (b : Body) (stack : List Word) (completion : Completion) (world : World)
    (result : Result) : Prop :=
  match completion with
  | .next => ∃ m frame, result = (.branch 0, ⟨m, frame, stack⟩) ∧ b.Running world m frame
  | .returned word => Returns b word world result

/-- A loop ends as often as the interpreter's does. The rounds so far are taken off the bound, so
that what is left of it is the same for every round. -/
theorem looped_shows (stack : List Word) (rounds : Nat) (hrunning : b.Running world m frame)
    (hfuel : m.fuel ≤ fuel) : Shows b.context.env b.functions
      (fun bound => repeatWhile (value bound) (body bound) (bound - rounds) world) (Left b stack)
      (looped stack.length (roundCode code bodyCode) ⟨m, frame, stack⟩) := by
  induction hn : m.fuel using Nat.strongRecOn generalizing world m frame rounds with
  | ind n ih =>
    have hshows : Shows b.context.env b.functions (fun bound =>
        (once (value bound) (body bound) >>=
          afterRound (repeatWhile (value bound) (body bound) (bound - (rounds + 1)))) world)
        (Left b stack)
        (looped stack.length (roundCode code bodyCode) ⟨m, frame, stack⟩) := by
      refine (once_shows htest hbody hrunning hfuel stack).bind ?_ ?_
      · intro reason htrap
        obtain ⟨s, hresult⟩ : ∃ s, exec (roundCode code bodyCode)
            ⟨m, frame, stack⟩ = (.trap reason, s) := ⟨_, Prod.ext htrap rfl⟩
        rw [looped_eq, hresult]
      · intro outcome world₁ hround
        rcases outcome with _ | _ | word
        · obtain ⟨m₁, frame₁, hresult, hrunning₁⟩ := hround
          rw [looped_eq, hresult]
          exact .value (.always fun _ => rfl) ⟨m₁, frame₁, rfl, hrunning₁⟩
        · obtain ⟨m₁, frame₁, hresult, hrunning₁⟩ := hround
          have hless : m₁.fuel < m.fuel := fuel_lt_of_branch hresult
          have hsame : (⟨m₁, frame₁, stack⟩ : State).truncate stack.length =
              ⟨m₁, frame₁, stack⟩ := by
            simp [State.truncate]
          rw [looped_eq, hresult]
          dsimp only
          rw [hsame]
          exact ih m₁.fuel (hn ▸ hless) (rounds + 1) hrunning₁ (by omega) rfl
        · obtain ⟨s, rest, hresult, hreturns⟩ := hround
          rw [looped_eq, hresult]
          exact .value (.always fun _ => rfl) ⟨s, rest, rfl, hreturns⟩
    refine hshows.eventually (rounds + 1) fun bound hbound => ?_
    have hleft : bound - rounds = bound - (rounds + 1) + 1 := by omega
    rw [hleft, repeatWhile_succ]

/-- A loop does what its rounds do until the test fails. -/
theorem acts_loop : Acts b fuel [.block [.loop (roundCode code bodyCode)]] fun bound =>
      repeatWhile (value bound) (body bound) bound := by
  intro world m frame stack hrunning hfuel
  refine .single fun _ => ?_
  show Shows _ _ _ _ (leaveBody (·.truncate stack.length) (exec [.loop (roundCode code bodyCode)]
    ⟨spent m, frame, stack⟩))
  have hless : (spent (spent m)).fuel ≤ fuel := by simp only [spent]; omega
  have hloop : Shows b.context.env b.functions
      (fun bound => repeatWhile (value bound) (body bound) bound world) (Left b stack)
      (exec [.loop (roundCode code bodyCode)] ⟨spent m, frame, stack⟩) :=
    .single fun _ => looped_shows htest hbody stack 0 hrunning.spent.spent hless
  refine hloop.through ?_ ?_
  · intro reason htrap
    refine leaveBody_of_not_branch (fun depth hbranch => ?_) _
    cases htrap.symm.trans hbranch
  · intro completion world₁ hleft
    cases completion with
    | next =>
      obtain ⟨m₁, frame₁, hresult, hrunning₁⟩ := hleft
      refine ⟨frame₁, m₁, ?_, hrunning₁⟩
      rw [hresult]
      simp [leaveBody, State.truncate]
    | returned word =>
      obtain ⟨s, rest, hresult, hreturns⟩ := hleft
      rw [hresult]
      exact ⟨s, rest, rfl, hreturns⟩

end Loops

end Constructs

section Statements

variable {program : Program} {b : Body} {fuel : Nat}

mutual

/-- **Statements.** The code of a scalar statement ends as the interpreter says, in a frame with all
the temporaries made for it. -/
theorem stmt_acts (hloaded : Loaded program b.context b.functions)
    (hcalls : CallsShow program b.context.env b.functions fuel) :
    (s : Stmt) → s.isScalar = true → (∀ name ∈ s.identifiers, Dollarless name) →
    Passes program.arityOf b.scope s.callSites → ∀ {progress later : Progress} {code : Code},
      (Lowering.stmt s).run b.scope progress = (.ok code, later) → later.temps ≤ b.temps →
      Acts b fuel code fun bound => stmt (invoke program bound) bound s := by
  intro s hscalar hnames hpasses progress later code hrun htemps
  cases s with
  | ret value =>
    simp only [Lowering.stmt, bind_eq_ok_iff, pure_eq_ok_iff] at hrun
    obtain ⟨valueCode, _, hrunValue, rfl, -⟩ := hrun
    exact acts_return (expr_computes hloaded hcalls value hscalar hnames hpasses hrunValue)
  | assign target value =>
    simp only [Stmt.isScalar, Bool.and_eq_true] at hscalar
    obtain ⟨-, hnamesValue⟩ := forall_mem_append.1 hnames
    obtain ⟨hpassesTarget, hpassesValue⟩ := passes_append.1 hpasses
    simp only [Lowering.stmt, bind_eq_ok_iff, newTemp_eq_ok_iff, pure_eq_ok_iff] at hrun
    obtain ⟨_, _, ⟨rfl, rfl⟩, valueCode, middle, hrunValue, assigned, _, hrunTarget, rfl, rfl⟩ :=
      hrun
    have hvalue :=
      ((expr_renumbers (v := .shifted 0 _) value False.elim (.unknown rfl)).self hrunValue).1.temps
    have hpattern := ((pattern_renumbers (v := .shifted 0 _) _ _ False.elim (.unknown rfl)).self
      hrunTarget).1.temps
    dsimp only at hvalue
    exact acts_assign hloaded.planned hscalar.1 (by omega)
      (expr_computes hloaded hcalls value hscalar.2 hnamesValue hpassesValue hrunValue) hrunTarget
  | expr value =>
    simp only [Lowering.stmt, bind_eq_ok_iff, pure_eq_ok_iff] at hrun
    obtain ⟨valueCode, _, hrunValue, rfl, -⟩ := hrun
    exact acts_expr (expr_computes hloaded hcalls value hscalar hnames hpasses hrunValue)
  | cond test thenBody elseBody =>
    simp only [Stmt.isScalar, Bool.and_eq_true] at hscalar
    obtain ⟨hnamesTest, hnamesBodies⟩ := forall_mem_append.1 hnames
    obtain ⟨hnamesThen, hnamesElse⟩ := forall_mem_append.1 hnamesBodies
    obtain ⟨hpassesTest, hpassesBodies⟩ := passes_append.1 hpasses
    obtain ⟨hpassesThen, hpassesElse⟩ := passes_append.1 hpassesBodies
    simp only [Lowering.stmt, bind_eq_ok_iff, pure_eq_ok_iff] at hrun
    obtain ⟨testCode, _, hrunTest, thenCode, middle, hrunThen, elseCode, _, hrunElse, rfl, rfl⟩ :=
      hrun
    have helse := ((block_renumbers (v := .shifted 0 _) elseBody False.elim (.unknown rfl)).self
      hrunElse).1.temps
    exact acts_cond
      (expr_computes hloaded hcalls test hscalar.1.1 hnamesTest hpassesTest hrunTest)
      (block_acts hloaded hcalls thenBody hscalar.1.2 hnamesThen hpassesThen hrunThen (by omega))
      (block_acts hloaded hcalls elseBody hscalar.2 hnamesElse hpassesElse hrunElse htemps)
  | loop test body =>
    simp only [Stmt.isScalar, Bool.and_eq_true] at hscalar
    obtain ⟨hnamesTest, hnamesBody⟩ := forall_mem_append.1 hnames
    obtain ⟨hpassesTest, hpassesBody⟩ := passes_append.1 hpasses
    simp only [Lowering.stmt, bind_eq_ok_iff, pure_eq_ok_iff] at hrun
    obtain ⟨testCode, _, hrunTest, bodyCode, _, hrunBody, rfl, rfl⟩ := hrun
    exact acts_loop
      (expr_computes hloaded hcalls test hscalar.1 hnamesTest hpassesTest hrunTest)
      (block_acts hloaded hcalls body hscalar.2 hnamesBody hpassesBody hrunBody htemps)
  | pass =>
    obtain ⟨rfl, -⟩ := pure_eq_ok_iff.1 hrun
    exact acts_nil

theorem block_acts (hloaded : Loaded program b.context b.functions)
    (hcalls : CallsShow program b.context.env b.functions fuel) :
    (ss : List Stmt) →
    Stmt.allScalar ss = true → (∀ name ∈ Stmt.allIdentifiers ss, Dollarless name) →
    Passes program.arityOf b.scope (Stmt.allCallSites ss) →
    ∀ {progress later : Progress} {code : Code},
      (Lowering.block ss).run b.scope progress = (.ok code, later) → later.temps ≤ b.temps →
      Acts b fuel code fun bound => block (invoke program bound) bound ss := by
  intro ss hscalar hnames hpasses progress later code hrun htemps
  cases ss with
  | nil =>
    obtain ⟨rfl, -⟩ := pure_eq_ok_iff.1 hrun
    exact acts_nil
  | cons first rest =>
    simp only [Stmt.allScalar, Bool.and_eq_true] at hscalar
    obtain ⟨hnamesFirst, hnamesRest⟩ := forall_mem_append.1 hnames
    obtain ⟨hpassesFirst, hpassesRest⟩ := passes_append.1 hpasses
    simp only [Lowering.block, bind_eq_ok_iff, pure_eq_ok_iff] at hrun
    obtain ⟨firstCode, middle, hrunFirst, restCode, _, hrunRest, rfl, rfl⟩ := hrun
    have hrest :=
      ((block_renumbers (v := .shifted 0 _) rest False.elim (.unknown rfl)).self hrunRest).1.temps
    exact acts_append
      (stmt_acts hloaded hcalls first hscalar.1 hnamesFirst hpassesFirst hrunFirst (by omega))
      (block_acts hloaded hcalls rest hscalar.2 hnamesRest hpassesRest hrunRest htemps)

end

end Statements

end TypedWasm.Scalar
