import TypedWasm.Proofs.Execution
import TypedWasm.Proofs.Scalar.Mirrors
import TypedWasm.Proofs.Scalar.Words

/-!
# Runs that show what the interpreter says

A run shows a computation when it runs out of fuel, or ends as the computation does from some bound
on, with a machine that mirrors the world after it.
-/

namespace TypedWasm.Scalar

open Lowering Exec

variable {γ : Type} {s : State} {instr : Instr} {world world' : World} {b : Body} {m : Machine}
  {frame : Frame} {code : Code}

section Outcomes

variable {α β : Type} {eval : Nat → Option γ} {outcome : γ} {trap : Trap}

/-- The outcome is the same from some bound on. -/
def Ends {γ : Type} (eval : Nat → Option γ) (outcome : γ) : Prop :=
  ∃ least, ∀ bound, least ≤ bound → eval bound = some outcome

theorem Ends.always (h : ∀ bound, eval bound = some outcome) : Ends eval outcome :=
  ⟨0, fun bound _ => h bound⟩

theorem Ends.of_succ (h : Ends (fun bound => eval (bound + 1)) outcome) : Ends eval outcome := by
  obtain ⟨least, hleast⟩ := h
  refine ⟨least + 1, fun bound hbound => ?_⟩
  obtain ⟨rest, rfl⟩ : ∃ rest, bound = rest + 1 := ⟨bound - 1, by omega⟩
  exact hleast rest (by omega)

theorem Eval.bind_assoc (first : Eval α) (next : α → Eval β) (last : β → Eval γ) :
    first >>= next >>= last = first >>= fun value => next value >>= last := by
  funext world
  show Eval.bind (Eval.bind first next) last world =
    Eval.bind first (fun value => Eval.bind (next value) last) world
  simp only [Eval.bind]
  rcases first world with _ | ⟨_ | _, _⟩ <;> rfl

theorem Eval.bind_ok {first : Eval α} {next : α → Eval β} {value : α}
    (h : first world = some (.ok value, world')) : (first >>= next) world = next value world' := by
  show Eval.bind first next world = next value world'
  simp only [Eval.bind, h]

theorem Eval.bind_error {first : Eval α} {next : α → Eval β}
    (h : first world = some (.error trap, world')) :
    (first >>= next) world = some (.error trap, world') := by
  show Eval.bind first next world = some (.error trap, world')
  simp only [Eval.bind, h]

variable {first : Nat → Eval α} {next : Nat → α → Eval β}

theorem Ends.bind {value : α} {outcome : Except Trap β × World}
    (h : Ends (fun bound => first bound world) (.ok value, world'))
    (hnext : Ends (fun bound => next bound value world') outcome) :
    Ends (fun bound => (first bound >>= next bound) world) outcome := by
  obtain ⟨least, hleast⟩ := h
  obtain ⟨least', hleast'⟩ := hnext
  refine ⟨max least least', fun bound hbound => ?_⟩
  dsimp only
  rw [Eval.bind_ok (hleast bound (by omega))]
  exact hleast' bound (by omega)

theorem Ends.bind_error (h : Ends (fun bound => first bound world) (.error trap, world')) :
    Ends (fun bound => (first bound >>= next bound) world) (.error trap, world') := by
  obtain ⟨least, hleast⟩ := h
  exact ⟨least, fun bound hbound => Eval.bind_error (hleast bound hbound)⟩

end Outcomes

/-- A run ends as a computation does, unless it runs out of fuel. `after` says what a value means
for the result of the run. -/
inductive Shows {α : Type} (env : Environment) (functions : List Func)
    (eval : Nat → Option (Except Trap α × World)) (after : α → World → Result → Prop)
    (result : Result) : Prop where
  | cut (h : result.1 = .trap .outOfFuel)
  | trap {reason : Trap} {world : World} (h : result.1 = .trap reason)
    (hends : Ends eval (.error reason, world))
    (hsettled : Settled env functions world result.2.machine)
  | value {value : α} {world : World} (hends : Ends eval (.ok value, world))
    (hafter : after value world result)

/-- A listing reached its end, with the given frame and stack. -/
def Leaves (b : Body) (frame : Frame) (stack : List Word) (world : World) (result : Result) :
    Prop :=
  ∃ m, result = (.next, ⟨m, frame, stack⟩) ∧ b.Running world m frame

/-- The machine after one unit of fuel. -/
def spent (m : Machine) : Machine := { m with fuel := m.fuel - 1 }

theorem Body.Running.spent (h : b.Running world m frame) : b.Running world (spent m) frame :=
  h.refuel _

theorem fuel_le_of_exec {t : State} {flow : Flow} (h : exec code s = (flow, t)) :
    t.machine.fuel ≤ s.machine.fuel := by
  have hkeeps := exec_keeps code s
  rw [h] at hkeeps
  exact hkeeps.fuel

namespace Shows

variable {α β : Type} {env : Environment} {functions : List Func}
  {eval : Nat → Option (Except Trap α × World)} {after : α → World → Result → Prop}
  {next : Nat → α → Eval β} {first : Nat → Eval α} {rest : Code} {word : Word}

variable {result result' : Result}

theorem through {after' : α → World → Result → Prop} (h : Shows env functions eval after result)
    (hpass : ∀ reason, result.1 = .trap reason → result' = result)
    (hafter : ∀ value world, after value world result → after' value world result') :
    Shows env functions eval after' result' := by
  cases h with
  | cut h =>
    rw [hpass _ h]
    exact .cut h
  | trap h hends hsettled =>
    rw [hpass _ h]
    exact .trap h hends hsettled
  | value hends hvalue => exact .value hends (hafter _ _ hvalue)

theorem eventually {eval' : Nat → Option (Except Trap α × World)}
    (h : Shows env functions eval after result) (least : Nat)
    (heval : ∀ bound, least ≤ bound → eval' bound = eval bound) :
    Shows env functions eval' after result := by
  have hsame : ∀ {outcome}, Ends eval outcome → Ends eval' outcome := by
    rintro outcome ⟨least', hleast⟩
    refine ⟨max least least', fun bound hbound => ?_⟩
    rw [heval bound (by omega)]
    exact hleast bound (by omega)
  cases h with
  | cut h => exact .cut h
  | trap h hends hsettled => exact .trap h (hsame hends) hsettled
  | value hends hvalue => exact .value (hsame hends) hvalue

/-- A computation that goes on after one that is shown. A trap of the first result has to be the
trap of the whole. -/
theorem bind {after' : β → World → Result → Prop}
    (h : Shows env functions (fun bound => first bound world) after result)
    (hpass : ∀ reason, result.1 = .trap reason → result' = result)
    (hnext : ∀ value world', after value world' result →
      Shows env functions (fun bound => next bound value world') after' result') :
    Shows env functions (fun bound => (first bound >>= next bound) world) after' result' := by
  cases h with
  | cut h =>
    rw [hpass _ h]
    exact .cut h
  | trap h hends hsettled =>
    rw [hpass _ h]
    exact .trap h hends.bind_error hsettled
  | value hends hvalue =>
    cases hnext _ _ hvalue with
    | cut h => exact .cut h
    | trap h hends' hsettled => exact .trap h (hends.bind hends') hsettled
    | value hends' hvalue' => exact .value (hends.bind hends') hvalue'

theorem push {stack : List Word} {above : α → List Word} {after : β → World → Result → Prop}
    (h : Shows env functions (fun bound => first bound world)
      (fun value => Leaves b frame (above value)) (exec code ⟨m, frame, stack⟩))
    (hrest : ∀ value world' m', m'.fuel ≤ m.fuel → b.Running world' m' frame →
      Shows env functions (fun bound => next bound value world') after
        (exec rest ⟨m', frame, above value⟩)) :
    Shows env functions (fun bound => (first bound >>= next bound) world) after
      (exec (code ++ rest) ⟨m, frame, stack⟩) := by
  rw [exec_append]
  refine h.bind (fun reason htrap => andThen_of_trap htrap _) ?_
  rintro value world' ⟨m', hresult, hrunning⟩
  rw [hresult]
  exact hrest value world' m' (fuel_le_of_exec hresult) hrunning

theorem cons (h : s.machine.fuel ≠ 0 →
      Shows env functions eval after (andThen (step exec looped instr s.burn) (exec rest))) :
    Shows env functions eval after (exec (instr :: rest) s) := by
  rw [exec_cons]
  by_cases hfuel : s.machine.fuel = 0
  · rw [if_pos hfuel]
    exact .cut rfl
  · rw [if_neg hfuel]
    exact h hfuel

theorem single
    (h : s.machine.fuel ≠ 0 → Shows env functions eval after (step exec looped instr s.burn)) :
    Shows env functions eval after (exec [instr] s) := by
  refine .cons fun hfuel => ?_
  rw [andThen_nil]
  exact h hfuel

variable {before stack : List Word}

section

variable {eval : Nat → Option (Except Trap Word × World)}

theorem atom (word : Word) (hrunning : b.Running world m frame)
    (heval : ∀ bound, eval bound = some (.ok word, world))
    (hstep : step exec looped instr ⟨spent m, frame, before⟩ =
      (.next, ⟨spent m, frame, word :: stack⟩)) :
    Shows env functions eval (fun word => Leaves b frame (word :: stack))
      (exec [instr] ⟨m, frame, before⟩) :=
  .single fun _ => .value (.always heval) ⟨spent m, hstep, hrunning.spent⟩

theorem numeric {op : NumericOp} {left right : Word} (hrunning : b.Running world m frame)
    (heval : ∀ bound, eval bound = some (numeric op left right, world)) :
    Shows b.context.env b.functions eval (fun word => Leaves b frame (word :: stack))
      (exec [.numeric op] ⟨m, frame, right :: left :: stack⟩) := by
  cases hvalue : Exec.numeric op left right with
  | ok word =>
    rw [hvalue] at heval
    refine .atom word hrunning heval ?_
    simp only [step, hvalue]
  | error reason =>
    rw [hvalue] at heval
    refine .single fun _ => ?_
    simp only [step, State.burn, hvalue]
    exact .trap rfl (.always heval) hrunning.spent.settled

theorem host {intrinsic : Intrinsic} (args : List Word) {m' : Machine}
    (hrunning : b.Running world' m' frame) (harity : intrinsic.arity = args.length)
    (hhost : (spent m).host intrinsic args = (.ok word, m'))
    (heval : ∀ bound, eval bound = some (.ok word, world')) :
    Shows env functions eval (fun word => Leaves b frame (word :: stack))
      (exec [.callIntrinsic intrinsic] ⟨m, frame, args.reverse ++ stack⟩) := by
  refine .single fun _ => .value (.always heval) ⟨m', ?_, hrunning⟩
  show callHost intrinsic ⟨spent m, frame, args.reverse ++ stack⟩ = _
  rw [callHost, harity]
  simp only [popArgs?_reverse_append, hhost, afterCall]

end

theorem cond {yields : Bool} {thenBody elseBody : Code}
    (hafter : ∀ value world result, after value world result → ∀ depth, result.1 ≠ .branch depth)
    (h : Shows env functions eval after (exec (if word ≠ 0 then thenBody else elseBody)
      ⟨spent m, frame, stack⟩)) :
    Shows env functions eval after (exec [.cond yields thenBody elseBody]
      ⟨m, frame, word :: stack⟩) := by
  refine .single fun _ => ?_
  show Shows env functions eval after (leaveBody (·) (exec (if word ≠ 0 then thenBody else elseBody)
    ⟨spent m, frame, stack⟩))
  have hkeeps : ∀ depth, (exec (if word ≠ 0 then thenBody else elseBody)
      ⟨spent m, frame, stack⟩).1 ≠ .branch depth := by
    intro depth hbranch
    cases h with
    | cut h => cases h.symm.trans hbranch
    | trap h _ _ => cases h.symm.trans hbranch
    | value _ hvalue => exact hafter _ _ _ hvalue depth hbranch
  rw [leaveBody_of_not_branch hkeeps]
  exact h

end Shows

end TypedWasm.Scalar
