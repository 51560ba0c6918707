import TypedWasm.Proofs.Execution

/-!
# The instructions of a run

Every instruction a run executes is an event, those inside blocks, loops, conditionals and called
functions included. Each event takes a unit of fuel, so the fuel left orders the events of a run.
-/

namespace TypedWasm

/-- The function a callee names, if it is not a matter of the host. -/
def Callee.function? : Callee → Option String
  | .user name => some name
  | .helper found => some found.name
  | .intrinsic _ => none

namespace Exec

variable {body : Code} {stack : List Word} {target : Callee} {name : String} {s : State}
  {args : List Word} {height : Nat}

structure Event where
  /-- The function whose listing holds the instruction. -/
  owner : String
  /-- What stands before the instruction in its listing. -/
  before : Code
  instr : Instr
  /-- The state the instruction starts from. -/
  state : State

namespace Event

def result (e : Event) : Result := step exec looped e.instr e.state

def fuel (e : Event) : Nat := e.state.machine.fuel

end Event

/-- What runs: the rest of a listing with what stands before it, what is inside an instruction, or a
loop. -/
inductive Part where
  | listing (before code : Code)
  | inside (instr : Instr)
  | loop (height : Nat) (body : Code)

variable {e : Event} {part : Part}

inductive Visits : (owner : String) → Part → State → Event → Prop
  | here {owner : String} {before rest : Code} {instr : Instr} {s : State}
      (hfuel : s.machine.fuel ≠ 0) :
      Visits owner (.listing before (instr :: rest)) s ⟨owner, before, instr, s.burn⟩
  | inside {owner : String} {before rest : Code} {instr : Instr} {s : State} {e : Event}
      (hfuel : s.machine.fuel ≠ 0) (hinside : Visits owner (.inside instr) s.burn e) :
      Visits owner (.listing before (instr :: rest)) s e
  | later {owner : String} {before rest : Code} {instr : Instr} {s t : State} {e : Event}
      (hfuel : s.machine.fuel ≠ 0) (hstep : step exec looped instr s.burn = (.next, t))
      (hrest : Visits owner (.listing (before ++ [instr]) rest) t e) :
      Visits owner (.listing before (instr :: rest)) s e
  | block {owner : String} {body : Code} {s : State} {e : Event}
      (hbody : Visits owner (.listing [] body) s e) : Visits owner (.inside (.block body)) s e
  | loop {owner : String} {body : Code} {s : State} {e : Event}
      (hbody : Visits owner (.loop s.stack.length body) s e) :
        Visits owner (.inside (.loop body)) s e
  | cond {owner : String} {thenBody elseBody : Code} {yields : Bool} {s : State}
      {value : Word} {stack : List Word} {e : Event} (hstack : s.stack = value :: stack)
      (hbody : Visits owner (.listing [] (if value ≠ 0 then thenBody else elseBody))
        { s with stack } e) :
      Visits owner (.inside (.cond yields thenBody elseBody)) s e
  | call {owner : String} {target : Callee} {name : String} {fn : Func} {args stack : List Word}
      {s : State} {e : Event} (htarget : target.function? = some name)
      (hfn : s.machine.function? name = some fn)
      (hargs : popArgs? s.stack fn.params.length = some (args, stack))
      (hbody : Visits name (.listing [] fn.body)
        { machine := s.machine, locals := Frame.ofCall fn args } e) :
      Visits owner (.inside (.call target)) s e
  | once {owner : String} {height : Nat} {body : Code} {s : State} {e : Event}
      (hbody : Visits owner (.listing [] body) s e) : Visits owner (.loop height body) s e
  | again {owner : String} {height : Nat} {body : Code} {s t : State} {e : Event}
      (hexec : exec body s = (.branch 0, t))
      (hagain : Visits owner (.loop height body) (t.truncate height) e) :
      Visits owner (.loop height body) s e

/-- Every event of a part of a run has a property. -/
def Always (P : Event → Prop) (owner : String) (part : Part) (s : State) : Prop :=
  ∀ e, Visits owner part s e → P e

section Always

variable {P : Event → Prop} {owner : String} {before : Code} {instr : Instr}

@[simp] theorem always_nil (s : State) : Always P owner (.listing before []) s := by
  intro e he
  cases he

/-- The events of a listing are its first instruction, those inside it and those of the rest. -/
theorem always_cons_iff {rest : Code} :
    Always P owner (.listing before (instr :: rest)) s ↔ (s.machine.fuel ≠ 0 →
      P ⟨owner, before, instr, s.burn⟩ ∧ Always P owner (.inside instr) s.burn ∧
        ∀ t, step exec looped instr s.burn = (.next, t) →
          Always P owner (.listing (before ++ [instr]) rest) t) := by
  constructor
  · intro h hfuel
    exact ⟨h _ (.here hfuel), fun e he => h e (.inside hfuel he),
      fun t ht e he => h e (.later hfuel ht he)⟩
  · intro h e he
    cases he with
    | here hfuel => exact (h hfuel).1
    | inside hfuel hinside => exact (h hfuel).2.1 e hinside
    | later hfuel hstep hrest => exact (h hfuel).2.2 _ hstep e hrest

theorem always_append_iff {first second : Code} :
    Always P owner (.listing before (first ++ second)) s ↔
      Always P owner (.listing before first) s ∧ ∀ t, exec first s = (.next, t) →
        Always P owner (.listing (before ++ first) second) t := by
  induction first generalizing before s with
  | nil => simp
  | cons instr rest ih =>
    rw [List.cons_append, always_cons_iff, always_cons_iff, exec_cons]
    by_cases hfuel : s.machine.fuel = 0
    · simp [hfuel]
    · simp only [ne_eq, hfuel, not_false_eq_true, forall_const, if_false]
      rcases hstep : step exec looped instr s.burn with ⟨_ | _ | _ | _, t⟩
      · simp [ih, and_assoc, andThen]
      · simp [andThen]
      · simp [andThen]
      · simp [andThen]

theorem always_atomic (hatomic : instr.isAtomic = true) (s : State) :
    Always P owner (.inside instr) s := by
  intro e he
  cases he <;> simp [InstrOf.isAtomic] at hatomic

theorem always_host (intrinsic : Intrinsic) (s : State) :
    Always P owner (.inside (.callIntrinsic intrinsic)) s := by
  intro e he
  cases he with
  | call htarget => cases htarget

theorem always_block_iff :
    Always P owner (.inside (.block body)) s ↔ Always P owner (.listing [] body) s := by
  refine ⟨fun h e he => h e (.block he), fun h e he => ?_⟩
  cases he with
  | block hbody => exact h e hbody

theorem always_inside_loop_iff :
    Always P owner (.inside (.loop body)) s ↔ Always P owner (.loop s.stack.length body) s := by
  refine ⟨fun h e he => h e (.loop he), fun h e he => ?_⟩
  cases he with
  | loop hbody => exact h e hbody

theorem always_cond_iff {yields : Bool} {thenBody elseBody : Code} {value : Word}
    (hstack : s.stack = value :: stack) :
    Always P owner (.inside (.cond yields thenBody elseBody)) s ↔
      Always P owner (.listing [] (if value ≠ 0 then thenBody else elseBody)) { s with stack } := by
  refine ⟨fun h e he => h e (.cond hstack he), fun h e he => ?_⟩
  cases he with
  | cond hother hbody =>
    obtain ⟨rfl, rfl⟩ := List.cons.inj (hstack.symm.trans hother)
    exact h e hbody

theorem always_call_iff {fn : Func} (htarget : target.function? = some name)
    (hfn : s.machine.function? name = some fn)
    (hargs : popArgs? s.stack fn.params.length = some (args, stack)) :
    Always P owner (.inside (.call target)) s ↔ Always P name (.listing [] fn.body)
      { machine := s.machine, locals := Frame.ofCall fn args } := by
  refine ⟨fun h e he => h e (.call htarget hfn hargs he), fun h e he => ?_⟩
  cases he with
  | call htarget' hfn' hargs' hbody =>
    cases htarget.symm.trans htarget'
    cases hfn.symm.trans hfn'
    cases hargs.symm.trans hargs'
    exact h e hbody

/-- The events of a loop are those of its body, and those of the loop started again. -/
theorem always_loop_iff : Always P owner (.loop height body) s ↔
    Always P owner (.listing [] body) s ∧
      ∀ t, exec body s = (.branch 0, t) →
        Always P owner (.loop height body) (t.truncate height) := by
  constructor
  · exact fun h => ⟨fun e he => h e (.once he), fun t ht e he => h e (.again ht he)⟩
  · intro h e he
    cases he with
    | once hbody => exact h.1 e hbody
    | again hexec hagain => exact h.2 _ hexec e hagain

end Always

/-- What a part of a run leads to. -/
def Part.result : Part → State → Result
  | .listing _ code, s => exec code s
  | .inside instr, s => step exec looped instr s
  | .loop height body, s => looped height body s

/-- An event leads to a machine in the given relation to the one it starts from. -/
def Event.Moves (R : Machine → Machine → Prop) (e : Event) : Prop :=
  R e.state.machine e.result.2.machine

theorem machine_leaveBody {atLabel : State → State} (hlabel : ∀ t, (atLabel t).machine = t.machine)
    (result : Result) : (leaveBody atLabel result).2.machine = result.2.machine := by
  obtain ⟨_ | ⟨_ | depth⟩ | _ | _, t⟩ := result
  · rfl
  · exact hlabel t
  · rfl
  · rfl
  · rfl

theorem step_function (htarget : target.function? = some name) (s : State) :
    step exec looped (.call target) s = callNamed exec name s := by
  cases target with
  | user found => cases htarget; rfl
  | helper found => cases htarget; rfl
  | intrinsic found => cases htarget

theorem step_unknown (htarget : target.function? = some name)
    (hfn : s.machine.function? name = none) :
    step exec looped (.call target) s = (.trap (.unknownFunction name), s) := by
  rw [step_function htarget, callNamed, hfn]

theorem machine_of_call (m : Machine) (fn : Func) (args : List Word) : (call exec m fn args).2 =
    (exec fn.body { machine := m, locals := Frame.ofCall fn args }).2.machine := by
  rw [call]
  rcases exec fn.body { machine := m, locals := Frame.ofCall fn args } with
    ⟨_ | _ | _ | _, ⟨m', locals, _ | ⟨word, rest⟩⟩⟩ <;> rfl

section Call

variable {fn : Func} (htarget : target.function? = some name)
    (hfn : s.machine.function? name = some fn)
  (hargs : popArgs? s.stack fn.params.length = some (args, stack))
include htarget hfn hargs

theorem step_call : step exec looped (.call target) s =
    afterCall s stack (call exec s.machine fn args) := by
  rw [step_function htarget, callNamed, hfn]
  simp only [hargs]

theorem machine_call : (step exec looped (.call target) s).2.machine = (exec fn.body
      { machine := s.machine, locals := Frame.ofCall fn args }).2.machine := by
  rw [step_call htarget hfn hargs, ← machine_of_call]
  rcases call exec s.machine fn args with ⟨_ | _, m⟩ <;> rfl

end Call

section Order

variable {R : Machine → Machine → Prop} {owner : String}

section

variable (hburn : ∀ s : State, R s.machine s.burn.machine)
include hburn

theorem moves_listing [IsPreorder Machine R] {before code : Code}
    (h : Always (Event.Moves R) owner (.listing before code) s) :
    R s.machine (exec code s).2.machine := by
  induction code generalizing before s with
  | nil => exact refl_of R _
  | cons instr rest ih =>
    rw [always_cons_iff] at h
    rw [exec_cons]
    split
    · exact refl_of R _
    · next hfuel =>
      obtain ⟨hhere, -, hrest⟩ := h hfuel
      have hstep : R s.machine (step exec looped instr s.burn).2.machine :=
        trans_of R (hburn s) hhere
      rcases hr : step exec looped instr s.burn with ⟨_ | _ | _ | _, t⟩
      · rw [hr] at hstep
        exact trans_of R hstep (ih (hrest t hr))
      all_goals
        rw [hr] at hstep
        exact hstep

theorem moves_loop [IsPreorder Machine R] (h : Always (Event.Moves R) owner (.loop height body) s) :
    R s.machine (looped height body s).2.machine := by
  induction hn : s.machine.fuel using Nat.strongRecOn generalizing s with
  | ind fuel ih =>
    obtain ⟨hbody, hagain⟩ := always_loop_iff.1 h
    have honce := moves_listing hburn hbody
    rw [looped_eq]
    rcases hr : exec body s with ⟨_ | ⟨_ | label⟩ | _ | _, t⟩
    · rw [hr] at honce
      exact honce
    · rw [hr] at honce
      have hlt : t.machine.fuel < s.machine.fuel := fuel_lt_of_branch hr
      have hrest := ih (t.truncate height).machine.fuel (by rw [← hn]; exact hlt) (hagain t hr) rfl
      exact trans_of R honce hrest
    all_goals
      rw [hr] at honce
      exact honce

/-- An event starts after its part of the run, with less fuel, and ends before it. -/
theorem between_of_visits [IsPreorder Machine R] (h : Always (Event.Moves R) owner part s)
    (he : Visits owner part s e) : (e.fuel < s.machine.fuel ∧ R s.machine e.state.machine) ∧
      R e.result.2.machine (part.result s).2.machine := by
  induction he with
  | @here owner before rest instr s hfuel =>
    obtain ⟨hhere, -, hrest⟩ := always_cons_iff.1 h hfuel
    refine ⟨⟨Nat.sub_one_lt hfuel, hburn s⟩, ?_⟩
    rw [Part.result, exec_cons, if_neg hfuel, Event.result]
    rcases hr : step exec looped instr s.burn with ⟨_ | _ | _ | _, t⟩
    · exact moves_listing hburn (hrest t hr)
    all_goals exact refl_of R _
  | @inside owner before rest instr s e hfuel hinside ih =>
    obtain ⟨hhere, hin, hrest⟩ := always_cons_iff.1 h hfuel
    obtain ⟨⟨hlt, hfirst⟩, hlast⟩ := ih hin
    refine ⟨⟨Nat.lt_of_lt_of_le hlt (Nat.sub_le _ _), trans_of R (hburn s) hfirst⟩,
      trans_of R hlast ?_⟩
    rw [Part.result, Part.result, exec_cons, if_neg hfuel]
    rcases hr : step exec looped instr s.burn with ⟨_ | _ | _ | _, t⟩
    · exact moves_listing hburn (hrest t hr)
    all_goals exact refl_of R _
  | @later owner before rest instr s t e hfuel hstep hvisits ih =>
    obtain ⟨hhere, -, hrest⟩ := always_cons_iff.1 h hfuel
    obtain ⟨⟨hlt, hfirst⟩, hlast⟩ := ih (hrest t hstep)
    have hkeeps := step_keeps exec_keeps looped_keeps instr s.burn
    rw [Event.Moves, Event.result, hstep] at hhere
    rw [hstep] at hkeeps
    refine ⟨⟨Nat.lt_of_lt_of_le hlt (Nat.le_trans hkeeps.fuel (Nat.sub_le _ _)),
      trans_of R (trans_of R (hburn s) hhere) hfirst⟩, ?_⟩
    rw [Part.result, exec_cons, if_neg hfuel, hstep]
    exact hlast
  | block hbody ih =>
    refine (ih (always_block_iff.1 h)).imp_right fun hlast => ?_
    rw [Part.result, step, machine_leaveBody]
    · exact hlast
    · exact fun _ => rfl
  | loop hbody ih => exact ih (always_inside_loop_iff.1 h)
  | @cond owner thenBody elseBody yields s value stack e hstack hbody ih =>
    refine (ih ((always_cond_iff hstack).1 h)).imp_right fun hlast => ?_
    obtain ⟨m, locals, words⟩ := s
    obtain rfl : words = value :: stack := hstack
    change R _ (leaveBody _ (exec _ _)).2.machine
    rw [machine_leaveBody]
    · exact hlast
    · exact fun _ => rfl
  | call htarget hfn hargs hbody ih =>
    refine (ih ((always_call_iff htarget hfn hargs).1 h)).imp_right fun hlast => ?_
    rw [Part.result, machine_call htarget hfn hargs]
    exact hlast
  | @once owner height body s e hbody ih =>
    obtain ⟨hin, hagain⟩ := always_loop_iff.1 h
    refine (ih hin).imp_right fun hlast => trans_of R hlast ?_
    rw [Part.result, Part.result, looped_eq]
    rcases hr : exec body s with ⟨_ | ⟨_ | label⟩ | _ | _, t⟩
    · exact refl_of R _
    · exact moves_loop hburn (hagain t hr)
    all_goals exact refl_of R _
  | @again owner height body s t e hexec hvisits ih =>
    obtain ⟨hin, hagain⟩ := always_loop_iff.1 h
    obtain ⟨⟨hlt, hfirst⟩, hlast⟩ := ih (hagain t hexec)
    have hless : t.machine.fuel < s.machine.fuel := fuel_lt_of_branch hexec
    have honce := moves_listing hburn hin
    rw [hexec] at honce
    refine ⟨⟨Nat.lt_trans hlt hless, trans_of R honce hfirst⟩, ?_⟩
    rw [Part.result, looped_eq, hexec]
    exact hlast

end

instance : IsPreorder Machine Machine.Follows where
  refl := .refl
  trans _ _ _ := .trans

theorem moves_follows (owner : String) (part : Part) (s : State) :
    Always (Event.Moves Machine.Follows) owner part s :=
  fun e _ => step_keeps exec_keeps looped_keeps e.instr e.state

/-- Two events in the order of the fuel they have: what starts with less fuel than another event
starts with, or ends with, starts from a later machine. What starts with the same fuel is the same
event. -/
structure Ordered (R : Machine → Machine → Prop) (e e' : Event) : Prop where
  starts : e'.fuel < e.fuel → R e.state.machine e'.state.machine
  ends : e'.fuel < e.result.2.machine.fuel → R e.result.2.machine e'.state.machine
  same : e'.fuel = e.fuel → e' = e

theorem Event.fuel_result_le (e : Event) : e.result.2.machine.fuel ≤ e.fuel :=
  (step_keeps exec_keeps looped_keeps e.instr e.state).fuel

variable {e' : Event} [IsPreorder Machine R]

/-- Events before and after a machine are in order, whichever comes first. -/
theorem ordered_across {m : Machine}
    (hend : m.fuel ≤ e.result.2.machine.fuel ∧ R e.result.2.machine m)
    (hstart : e'.fuel < m.fuel ∧ R m e'.state.machine) (hmoves : e.Moves R) :
    Ordered R e e' ∧ Ordered R e' e := by
  have hresult := trans_of R hend.2 hstart.2
  have hfirst := e.fuel_result_le
  have hsecond := e'.fuel_result_le
  exact ⟨⟨fun _ => trans_of R hmoves hresult, fun _ => hresult, fun _ => by omega⟩,
    ⟨fun _ => by omega, fun _ => by omega, fun _ => by omega⟩⟩

section

variable (hburn : ∀ s : State, R s.machine s.burn.machine)
include hburn

theorem ended_of_visits {flow : Flow} {t : State} (h : Always (Event.Moves R) owner part s)
    (he : Visits owner part s e) (hresult : part.result s = (flow, t)) :
    t.machine.fuel ≤ e.result.2.machine.fuel ∧ R e.result.2.machine t.machine := by
  have hfuel := (between_of_visits burn_follows (moves_follows owner part s) he).2.fuel
  have hend := (between_of_visits hburn h he).2
  rw [hresult] at hfuel hend
  exact ⟨hfuel, hend⟩

theorem ordered_inside {before : Code} {instr : Instr} (hinside : Visits owner (.inside instr) s e)
    (hin : Always (Event.Moves R) owner (.inside instr) s) :
    Ordered R ⟨owner, before, instr, s⟩ e ∧ Ordered R e ⟨owner, before, instr, s⟩ := by
  obtain ⟨⟨hlt, hstart⟩, -⟩ := between_of_visits hburn hin hinside
  have hlast := (ended_of_visits hburn hin hinside rfl).1
  have hresult := e.fuel_result_le
  have hfuel : (Event.mk owner before instr s).fuel = s.machine.fuel := rfl
  have hend : (Event.mk owner before instr s).result.2.machine.fuel ≤ e.fuel :=
    Nat.le_trans hlast hresult
  exact ⟨⟨fun _ => hstart, fun _ => by omega, fun _ => by omega⟩,
    ⟨fun _ => by omega, fun _ => by omega, fun _ => by omega⟩⟩

/-- The fuel left orders the events of a run. -/
theorem ordered_of_visits (h : Always (Event.Moves R) owner part s) (he : Visits owner part s e)
    (he' : Visits owner part s e') : Ordered R e e' := by
  induction he with
  | @here owner before rest instr s hfuel =>
    obtain ⟨hhere, hin, hrest⟩ := always_cons_iff.1 h hfuel
    cases he' with
    | here =>
      have hresult := (Event.mk owner before instr s.burn).fuel_result_le
      exact ⟨fun _ => by omega, fun _ => by omega, fun _ => rfl⟩
    | inside _ hinside => exact (ordered_inside hburn hinside hin).1
    | later _ hstep hvisits =>
      refine (ordered_across ?_ (between_of_visits hburn (hrest _ hstep) hvisits).1 hhere).1
      rw [Event.result, hstep]
      exact ⟨Nat.le_refl _, refl_of R _⟩
  | @inside owner before rest instr s e hfuel hinside ih =>
    obtain ⟨hhere, hin, hrest⟩ := always_cons_iff.1 h hfuel
    cases he' with
    | here => exact (ordered_inside hburn hinside hin).2
    | inside _ hinside' => exact ih hin hinside'
    | later _ hstep hvisits =>
      exact (ordered_across (ended_of_visits hburn hin hinside hstep)
        (between_of_visits hburn (hrest _ hstep) hvisits).1 (hin e hinside)).1
  | @later owner before rest instr s t e hfuel hstep hvisits ih =>
    obtain ⟨hhere, hin, hrest⟩ := always_cons_iff.1 h hfuel
    have hstart := (between_of_visits hburn (hrest _ hstep) hvisits).1
    cases he' with
    | here =>
      refine (ordered_across ?_ hstart hhere).2
      rw [Event.result, hstep]
      exact ⟨Nat.le_refl _, refl_of R _⟩
    | inside _ hinside' =>
      exact (ordered_across (ended_of_visits hburn hin hinside' hstep) hstart (hin _ hinside')).2
    | later _ hstep' hvisits' =>
      cases hstep.symm.trans hstep'
      exact ih (hrest _ hstep) hvisits'
  | block hbody ih =>
    cases he' with
    | block hbody' => exact ih (always_block_iff.1 h) hbody'
  | loop hbody ih =>
    cases he' with
    | loop hbody' => exact ih (always_inside_loop_iff.1 h) hbody'
  | cond hstack hbody ih =>
    cases he' with
    | cond hstack' hbody' =>
      cases hstack.symm.trans hstack'
      exact ih ((always_cond_iff hstack).1 h) hbody'
  | call htarget hfn hargs hbody ih =>
    cases he' with
    | call htarget' hfn' hargs' hbody' =>
      cases htarget.symm.trans htarget'
      cases hfn.symm.trans hfn'
      cases hargs.symm.trans hargs'
      exact ih ((always_call_iff htarget hfn hargs).1 h) hbody'
  | once hbody ih =>
    obtain ⟨hin, hagain⟩ := always_loop_iff.1 h
    cases he' with
    | once hbody' => exact ih hin hbody'
    | again hexec hvisits =>
      exact (ordered_across (ended_of_visits hburn hin hbody hexec)
        (between_of_visits hburn (hagain _ hexec) hvisits).1 (hin _ hbody)).1
  | again hexec hvisits ih =>
    obtain ⟨hin, hagain⟩ := always_loop_iff.1 h
    cases he' with
    | once hbody =>
      exact (ordered_across (ended_of_visits hburn hin hbody hexec)
        (between_of_visits hburn (hagain _ hexec) hvisits).1 (hin _ hbody)).2
    | again hexec' hvisits' =>
      cases hexec.symm.trans hexec'
      exact ih (hagain _ hexec) hvisits'

end

end Order

end Exec

end TypedWasm
