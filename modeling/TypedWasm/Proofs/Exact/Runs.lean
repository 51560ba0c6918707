import TypedWasm.Proofs.Execution
import TypedWasm.Proofs.Frames

/-!
# Runs with fuel to spare

What a listing does once there is fuel enough for it: how it ends and in which state. The cost of a
run is not counted out, only that there is one, and that with less the run is cut short.
-/

namespace TypedWasm

open Machine Option

variable {s : State}

namespace Frame

variable (frame : Frame)

/-- The frame with a local written, if it is there. -/
def put (frame : Frame) (name : String) (value : Word) : Frame :=
  (frame.set? name value).getD frame

section

variable (name : String) (value : Word)

theorem set?_eq : frame.set? name value = (frame.get? name).map fun _ => frame.put name value := by
  have hsome := isSome_set? frame name value
  cases hset : frame.set? name value with
  | none =>
    rw [hset, isSome_none, eq_comm, isSome_eq_false_iff, isNone_iff_eq_none] at hsome
    rw [hsome, map_none]
  | some frame' =>
    rw [hset, isSome_some, eq_comm] at hsome
    obtain ⟨old, hold⟩ := isSome_iff_exists.1 hsome
    rw [hold, map_some, put, hset, getD_some]

theorem get?_put (other : String) :
    (frame.put name value).get? other =
      if other = name then (frame.get? name).map fun _ => value else frame.get? other := by
  cases hget : frame.get? name with
  | none =>
    have hset : frame.set? name value = none := by rw [set?_eq, hget, map_none]
    rw [put, hset, getD_none]
    split
    · next he => rw [he, hget, map_none]
    · rfl
  | some old =>
    have hset : frame.set? name value = some (frame.put name value) := by
      rw [set?_eq, hget, map_some]
    rw [get?_of_set? hset, map_some]

@[simp] theorem isSome_get?_put (other : String) :
    ((frame.put name value).get? other).isSome = (frame.get? other).isSome := by
  rw [get?_put]
  split
  · next h => rw [h, isSome_map]
  · rfl

end

theorem put_put (name : String) (value later : Word) :
    (frame.put name value).put name later = frame.put name later := by
  induction frame with
  | nil => rfl
  | cons entry rest ih =>
    obtain ⟨known, old⟩ := entry
    by_cases hknown : known = name
    · simp [put, set?, hknown]
    · have hcons : ∀ (frame : Frame) (old word : Word),
          put ((known, old) :: frame) name word = (known, old) :: put frame name word := by
        intro frame old word
        simp only [put, set?, beq_iff_eq, hknown, if_false]
        cases set? frame name word <;> rfl
      rw [hcons, hcons, hcons, ih]

end Frame

/-! ### Symbolic execution

With this namespace open, `simp` runs straight code: it takes each instruction apart and follows
what is written to the locals. A local can be written where it is known to be there. -/

namespace Symbolic

theorem map_of_isSome {α β : Type} {old : Option α} (h : old.isSome) (new : β) :
    old.map (fun _ => new) = some new := by
  obtain ⟨_, rfl⟩ := isSome_iff_exists.1 h
  rfl

attribute [scoped simp] map_of_isSome Exec.straight Exec.step Exec.numeric State.push Instr.constU
  Instr.add Instr.sub Instr.mul InstrOf.isAtomic Frame.get?_put Frame.set?_eq

end Symbolic

theorem State.truncate_self {height : Nat} (h : s.stack.length = height) :
    s.truncate height = s := by
  rw [State.truncate, h, Nat.sub_self, List.drop_zero]

namespace Exec

variable {word : Word} {trap : Trap} {outcome : Except Trap Word} {helper : Helper}
  {body : Code} {flow : Flow} {t : State}

def refuel (s : State) (fuel : Nat) : State := s.equip s.machine.functions fuel

/-- A run has a cost: with that much fuel or more it ends, what is left over going into the end, and
with less it is cut short. -/
inductive Costs {α ι : Type} (run : Nat → α) (cut : ι → α) (done : Nat → α) : Prop
  | of (cost : Nat) (ends : ∀ fuel, run (cost + fuel) = done fuel)
    (short : ∀ fuel < cost, ∃ i, run fuel = cut i)

namespace Costs

variable {α β ι κ : Type} {run done : Nat → α} {cut : ι → α} {run' next done' : Nat → β}
  {cut' : κ → β}

theorem free (h : ∀ fuel, run fuel = done fuel) : Costs run cut done :=
  ⟨0, fun fuel => by rw [Nat.zero_add, h], fun _ hfuel => absurd hfuel (Nat.not_lt_zero _)⟩

theorem bind (h : Costs run cut done) (hnext : Costs next cut' done') (f : α → β)
    (hrun : ∀ fuel, run' fuel = f (run fuel)) (hdone : ∀ fuel, f (done fuel) = next fuel)
    (hcut : ∀ i, ∃ j, f (cut i) = cut' j) : Costs run' cut' done' := by
  obtain ⟨cost, hends, hshort⟩ := h
  obtain ⟨cost', hends', hshort'⟩ := hnext
  refine ⟨cost + cost', fun fuel => ?_, fun fuel hfuel => ?_⟩
  · rw [hrun, Nat.add_assoc, hends, hdone, hends']
  · rw [hrun]
    by_cases hless : fuel < cost
    · obtain ⟨i, hi⟩ := hshort fuel hless
      rw [hi]
      exact hcut i
    · obtain ⟨left, rfl⟩ := Nat.exists_eq_add_of_le (Nat.le_of_not_lt hless)
      rw [hends, hdone]
      exact hshort' left (by omega)

theorem map (h : Costs run cut done) (f : α → β) (hrun : ∀ fuel, run' fuel = f (run fuel))
    (hdone : ∀ fuel, f (done fuel) = done' fuel) (hcut : ∀ i, ∃ j, f (cut i) = cut' j) :
    Costs run' cut' done' :=
  h.bind (free fun _ => rfl) f hrun hdone hcut

end Costs

/-- A run that ends with `flow` in the state `t`, fuel apart. -/
def RunEnds (run : State → Result) (s : State) (flow : Flow) (t : State) : Prop :=
  Costs (fun fuel => run (refuel s fuel)) (fun cut : State => (.trap .outOfFuel, cut))
    fun fuel => (flow, refuel t fuel)

/-- Given enough fuel, a listing ends with `flow` in the state `t`, fuel apart. -/
def Ends (code : Code) (s : State) (flow : Flow) (t : State) : Prop :=
  RunEnds (exec code) s flow t

theorem functions_straight {code : Code} (h : straight code s = some t) :
    t.machine.functions = s.machine.functions := by
  induction code generalizing s with
  | nil =>
    cases h
    rfl
  | cons instr rest ih =>
    have hkeeps : Keeps s (step (fun _ t => (.next, t)) (fun _ _ t => (.next, t)) instr s) := by
      apply step_keeps
      · exact fun _ _ => .refl _
      · exact fun _ _ _ => .refl _
    rw [straight] at h
    split at h
    · next u hu =>
      rw [hu] at hkeeps
      exact (ih h).trans hkeeps.functions
    · cases h

namespace Ends

variable {code first rest : Code} {s t u : State} {flow : Flow} {intrinsic : Intrinsic}
  (args : List Word) {instr : Instr} {yields : Bool}

theorem nil (s : State) : Ends [] s .next s := .free fun _ => exec_nil _

theorem append (h : Ends first s .next t) (hrest : Ends rest t flow u) :
    Ends (first ++ rest) s flow u :=
  h.bind hrest (andThen · (exec rest)) (fun _ => exec_append _ _ _) (fun _ => rfl) fun cut =>
    ⟨cut, rfl⟩

theorem stop (h : Ends first s flow t) (hflow : flow ≠ .next) (rest : Code) :
    Ends (first ++ rest) s flow t := by
  refine h.map (andThen · (exec rest)) (fun _ => exec_append _ _ _) (fun _ => ?_) fun cut =>
    ⟨cut, rfl⟩
  cases flow with
  | next => exact absurd rfl hflow
  | _ => rfl

theorem straight (h : Exec.straight code s = some t) (hatomic : ∀ i ∈ code, i.isAtomic = true := by
      simp [InstrOf.isAtomic, Instr.constU, Instr.add, Instr.sub, Instr.mul]) :
    Ends code s .next t := by
  have hends := fun fuel => exec_straight hatomic h s.machine.functions fuel []
  simp only [List.append_nil] at hends
  refine ⟨code.length, fun fuel => ?_, fun fuel hless => ?_⟩
  · rcases hends (code.length + fuel) with ⟨hlt, -⟩ | ⟨left, hleft, hexec⟩
    · omega
    · obtain rfl : fuel = left := by omega
      simp only [refuel]
      rw [hexec, exec_nil, functions_straight h]
  · rcases hends fuel with ⟨-, hcut⟩ | ⟨left, hleft, -⟩
    · exact ⟨_, Prod.ext hcut rfl⟩
    · omega

theorem after (h : Exec.straight first s = some t) (hrest : Ends rest t flow u)
    (hatomic : ∀ i ∈ first, i.isAtomic = true := by
      simp [InstrOf.isAtomic, Instr.constU, Instr.add, Instr.sub, Instr.mul]) :
    Ends (first ++ rest) s flow u :=
  (straight h hatomic).append hrest

theorem single (h : RunEnds (step exec looped instr) s flow t) : Ends [instr] s flow t := by
  obtain ⟨cost, hends, hcut⟩ := h
  have hstep : ∀ fuel, exec [instr] (refuel s (fuel + 1)) =
      step exec looped instr (refuel s fuel) := by
    intro fuel
    have hfuel : (refuel s (fuel + 1)).machine.fuel ≠ 0 := Nat.succ_ne_zero fuel
    rw [exec_cons, if_neg hfuel, andThen_nil]
    rfl
  refine ⟨cost + 1, fun fuel => ?_, fun fuel hless => ?_⟩
  · rw [Nat.add_right_comm, hstep]
    exact hends fuel
  · cases fuel with
    | zero =>
      have hempty : (refuel s 0).machine.fuel = 0 := rfl
      exact ⟨refuel s 0, by rw [exec_cons, if_pos hempty]⟩
    | succ fuel =>
      rw [hstep]
      exact hcut fuel (Nat.lt_of_succ_lt_succ hless)

theorem leave (hstep : ∀ fuel, step exec looped instr (refuel s fuel) = (flow, refuel t fuel)) :
    Ends [instr] s flow t :=
  single (.free hstep)

variable {m : Machine} {frame : Frame} {stack : List Word}

theorem cond {thenBody elseBody : Code}
    (h : Ends (if word ≠ 0 then thenBody else elseBody) ⟨m, frame, stack⟩ flow t)
    (hflow : ∀ depth, flow ≠ .branch depth) :
    Ends [.cond yields thenBody elseBody] ⟨m, frame, word :: stack⟩ flow t :=
  single (h.map (leaveBody (·)) (fun _ => rfl) (fun _ => leaveBody_of_not_branch hflow _)
    fun cut => ⟨cut, rfl⟩)

theorem skip (thenBody : Code) (hword : word = 0) :
    Ends [.cond yields thenBody []] ⟨m, frame, word :: stack⟩ .next ⟨m, frame, stack⟩ := by
  refine cond ?_ (by simp)
  rw [if_neg (by simp [hword])]
  exact nil _

theorem hostTrap (harity : intrinsic.arity = args.length)
    (h : m.host intrinsic args = (.error trap, m)) :
    Ends [.callIntrinsic intrinsic] ⟨m, frame, args.reverse ++ stack⟩ (.trap trap)
      ⟨m, frame, stack⟩ := by
  refine leave fun fuel => ?_
  show callHost intrinsic (refuel ⟨m, frame, args.reverse ++ stack⟩ fuel) = _
  rw [callHost, harity]
  simp only [refuel, State.equip, popArgs?_reverse_append, host_equip, h]
  rfl

theorem hostValue {m' : Machine} (harity : intrinsic.arity = args.length)
    (h : m.host intrinsic args = (.ok word, m')) :
    Ends [.callIntrinsic intrinsic] ⟨m, frame, args.reverse ++ stack⟩ .next
      ⟨m', frame, word :: stack⟩ := by
  have hkept : m'.functions = m.functions := by
    have hfollows := (host_follows m intrinsic args).functions
    rwa [h] at hfollows
  refine leave fun fuel => ?_
  show callHost intrinsic (refuel ⟨m, frame, args.reverse ++ stack⟩ fuel) = _
  rw [callHost, harity]
  simp only [refuel, State.equip, popArgs?_reverse_append, host_equip, h, hkept]
  rfl

/-- A test that fails is reported to the host with two words, and the run stops there. -/
theorem reports (words : Code) {first second : Word} (hword : word ≠ 0)
    (hwords : Exec.straight words ⟨m, frame, stack⟩ = some ⟨m, frame, second :: first :: stack⟩)
    (harity : intrinsic.arity = 2) (hhost : m.host intrinsic [first, second] = (.error trap, m))
    (hatomic : ∀ i ∈ words, i.isAtomic = true := by simp [InstrOf.isAtomic]) :
    Ends [.when (words ++ [.callIntrinsic intrinsic, .unreachable])] ⟨m, frame, word :: stack⟩
      (.trap trap) ⟨m, frame, stack⟩ := by
  refine .cond ?_ (by simp)
  rw [if_pos hword]
  exact .after hwords ((hostTrap [first, second] harity hhost).stop (by simp) [.unreachable])
    hatomic

theorem flow_unique {flow' : Flow} {t' : State} (h : Ends code s flow t)
    (h' : Ends code s flow' t') : flow = flow' := by
  obtain ⟨cost, hends, -⟩ := h
  obtain ⟨cost', hends', -⟩ := h'
  have hsame := hends cost'
  rw [Nat.add_comm, hends' cost] at hsame
  exact (congrArg Prod.fst hsame).symm

/-- How a listing ends is settled: with the fuel there is, it ends so or runs out of it. -/
theorem cut_or (h : Ends code s flow t) :
    (exec code s).1 = .trap .outOfFuel ∨ ∃ fuel, exec code s = (flow, refuel t fuel) := by
  obtain ⟨cost, hends, hcut⟩ := h
  by_cases hless : s.machine.fuel < cost
  · obtain ⟨cut, hends⟩ := hcut s.machine.fuel hless
    exact .inl (congrArg Prod.fst hends)
  · obtain ⟨left, hleft⟩ := Nat.exists_eq_add_of_le (Nat.le_of_not_lt hless)
    have hrun := hends left
    rw [← hleft] at hrun
    exact .inr ⟨left, hrun⟩

end Ends

/-- Given enough fuel, a loop ends with `flow` in the state `t`, fuel apart. -/
def Loops (height : Nat) (body : Code) (s : State) (flow : Flow) (t : State) : Prop :=
  RunEnds (looped height body) s flow t

namespace Loops

variable {height : Nat} {body : Code} {s t u : State} {flow : Flow}

/-- What a loop makes of a round. -/
def afterRound (height : Nat) (body : Code) : Result → Result
  | (.branch 0, t) => looped height body (t.truncate height)
  | (.branch (label + 1), t) => (.branch label, t)
  | other => other

theorem looped_eq_afterRound (s : State) :
    looped height body s = afterRound height body (exec body s) := looped_eq height body s

theorem again (h : Ends body s (.branch 0) t)
    (hrest : Loops height body (t.truncate height) flow u) : Loops height body s flow u :=
  h.bind hrest (afterRound height body) (fun _ => looped_eq_afterRound _) (fun _ => rfl)
    fun cut => ⟨cut, rfl⟩

theorem out {label : Nat} (h : Ends body s (.branch (label + 1)) t) :
    Loops height body s (.branch label) t :=
  h.map (afterRound height body) (fun _ => looped_eq_afterRound _) (fun _ => rfl) fun cut =>
    ⟨cut, rfl⟩

theorem ret (h : Ends body s .ret t) : Loops height body s .ret t :=
  h.map (afterRound height body) (fun _ => looped_eq_afterRound _) (fun _ => rfl) fun cut =>
    ⟨cut, rfl⟩

end Loops

theorem Ends.loop (h : Loops s.stack.length body s flow t) : Ends [.loop body] s flow t := .single h

theorem Ends.blockLoop (h : Loops s.stack.length body s (.branch 0) t) :
    Ends [.block [.loop body]] s .next (t.truncate s.stack.length) :=
  .single ((Ends.loop h).map (leaveBody (·.truncate s.stack.length)) (fun _ => rfl) (fun _ => rfl)
    fun cut => ⟨cut, rfl⟩)

theorem Ends.blockReturn (h : Loops s.stack.length body s .ret t) :
    Ends [.block [.loop body]] s .ret t :=
  .single ((Ends.loop h).map (leaveBody (·.truncate s.stack.length)) (fun _ => rfl) (fun _ => rfl)
    fun cut => ⟨cut, rfl⟩)

/-- Given enough fuel, a call of a function ends with an outcome and leaves the machine `m'`, fuel
apart. -/
def Answers (m : Machine) (fn : Func) (args : List Word) (outcome : Except Trap Word)
    (m' : Machine) : Prop :=
  Costs (fun fuel => call exec { m with fuel } fn args)
    (fun cut : Machine => (.error .outOfFuel, cut)) fun fuel => (outcome, { m' with fuel })

section Calls

variable {m m' : Machine} {fn : Func} {args stack : List Word} {frame : Frame} {t : State}

/-- What a call makes of the run of the body. -/
def afterBody : Result → Machine.Effect Word
  | (.trap trap, s) => (.error trap, s.machine)
  | (_, s) =>
    match s.stack with
    | [] => (.error .stackUnderflow, s.machine)
    | word :: _ => (.ok word, s.machine)

theorem Answers.ofEnds (h : Ends fn.body ⟨m, .ofCall fn args, []⟩ flow t)
    (hdone : ∀ fuel, afterBody (flow, refuel t fuel) = (outcome, { m' with fuel })) :
    Answers m fn args outcome m' :=
  h.map afterBody (fun _ => rfl) hdone fun cut => ⟨cut.machine, rfl⟩

theorem Answers.ofBody (h : Ends fn.body ⟨m, .ofCall fn args, []⟩ flow t)
    (hflow : flow = .next ∨ flow = .ret) (hstack : t.stack.head? = some word) :
    Answers m fn args (.ok word) t.machine := by
  refine .ofEnds h fun fuel => ?_
  obtain ⟨machine, locals, stack⟩ := t
  obtain ⟨rest, rfl⟩ : ∃ rest, stack = word :: rest := List.head?_eq_some_iff.1 hstack
  rcases hflow with rfl | rfl <;> rfl

theorem Answers.ofTrap (h : Ends fn.body ⟨m, .ofCall fn args, []⟩ (.trap trap) t) :
    Answers m fn args (.error trap) t.machine :=
  .ofEnds h fun _ => rfl

theorem Answers.call {name : String} (h : Answers m fn args outcome m')
    (hfn : m.function? name = some fn) :
    ∃ cost, ∀ fuel, { m with fuel := cost + fuel }.call name args =
      (outcome, { m' with fuel }) := by
  obtain ⟨cost, hends, -⟩ := h
  refine ⟨cost, fun fuel => ?_⟩
  have hfound : { m with fuel := cost + fuel }.function? name = some fn := hfn
  rw [call_eq, hfound]
  exact hends fuel

theorem Ends.callAnswered (h : Answers m fn args outcome m')
    (hfn : m.function? helper.name = some fn) (harity : fn.params.length = args.length) (hdone : ∀
    fuel, afterCall ⟨m, frame, stack⟩ stack (outcome, { m' with fuel }) = (flow, refuel t fuel)) :
    Ends [.callHelper helper] ⟨m, frame, args.reverse ++ stack⟩ flow t := by
  refine .single (h.map (afterCall ⟨m, frame, stack⟩ stack) (fun fuel => ?_) hdone
    fun cut => ⟨⟨cut, frame, stack⟩, rfl⟩)
  have hfound : (m.equip m.functions fuel).function? helper.name = some fn := hfn
  show callNamed exec helper.name (refuel ⟨m, frame, args.reverse ++ stack⟩ fuel) = _
  simp only [callNamed, refuel, State.equip, hfound, harity, popArgs?_reverse_append]
  rfl

theorem Ends.callHelper (h : Answers m fn args (.ok word) m')
    (hfn : m.function? helper.name = some fn) (harity : fn.params.length = args.length) :
    Ends [.callHelper helper] ⟨m, frame, args.reverse ++ stack⟩ .next ⟨m', frame, word :: stack⟩ :=
  .callAnswered h hfn harity fun _ => rfl

theorem Ends.callTrap (h : Answers m fn args (.error trap) m')
    (hfn : m.function? helper.name = some fn) (harity : fn.params.length = args.length) :
    Ends [.callHelper helper] ⟨m, frame, args.reverse ++ stack⟩ (.trap trap) ⟨m', frame, stack⟩ :=
  .callAnswered h hfn harity fun _ => rfl

end Calls

end Exec

end TypedWasm
