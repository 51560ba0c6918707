import TypedWasm.Proofs.Isolation
import TypedWasm.Proofs.Renamed.Bodies

/-!
# Units one after another

A unit that goes on with further statements compiles against the environment of the unit before it
exactly when both compile as one unit, and running one after the other does what running both at
once does, unless a call with too many arguments leaves words behind that only the unit at once
still has.
-/

namespace TypedWasm

open Environment Exec TypedWasm.Frame Helper List Nat Option

variable {extended env : Environment} {functions : List Func} {main : Func} {program : Program}
  {config : Config} {u u' u₂ : CompiledUnit} {count count₂ : Nat} {code code₂ code₂' : Code}
  {bodies : List LoweredBody}

namespace Program

def next (program : Program) (more : List Stmt) : Program :=
  { program with inits := [], stmts := more }

def whole (program : Program) (more : List Stmt) : Program :=
  { program with stmts := program.stmts ++ more }

end Program

/-! ### Compiling -/

theorem Environment.extend_next (h : Environment.extend {} program = .ok extended)
    (more : List Stmt) : extended.extend (program.next more) = .ok extended := by
  have hdeclares := declares_empty.extend h
  obtain ⟨between, -, hclasses⟩ := extend_eq_ok_iff.1 h
  obtain ⟨-, hsettles, -⟩ := addClasses_grows hclasses
  refine extend_eq_ok_iff.2 ⟨extended, ?_, addClasses_of_settles hdeclares.recorded.names hsettles⟩
  show Except.ok extended.leave = .ok extended
  rw [leave_of_extend h]

namespace LoweredBody

theorem collect_snoc (h : bodies.map (·.1) = functions.map Except.ok) (top : LoweredBody) :
    collect (bodies ++ [top]) =
      match top.1 with
      | .ok fn => .ok (functions ++ [fn])
      | .error failure => .error failure.ofUnit := by
  obtain ⟨hoverflow, hfault, hfunctions⟩ := no_failure_of_map h
  simp only [collect, filterMap_append, hoverflow, hfault, hfunctions, nil_append]
  obtain ⟨_ | fn, progress⟩ := top
  · next failure => cases failure <;> rfl
  · rfl

end LoweredBody

/-- A unit whose declarations fit and whose routines lower compiles if its top level does. -/
theorem compile_of_routines (hextend : env.extend program = .ok extended)
    (hfit : checkGlobalsFit extended config = .ok ()) (hmain : mainName ∉ program.funs.map (·.name))
    (hroutines : (program.routines.map (program.lowerRoutine config extended)).map (·.1) =
      functions.map Except.ok) :
    compile config env program =
      match (program.lowerTopLevel config extended).1 with
      | .ok main => .ok (assemble config extended.leave (program.lowered config extended)
          (functions ++ [main]))
      | .error failure => .error failure.ofUnit := by
  have hcallables := Program.callables_eq_ok_iff.2 ⟨hmain, rfl⟩
  simp only [compile_eq, hextend, hfit, hcallables]
  rw [program.lowered_eq, LoweredBody.collect_snoc hroutines]
  cases (program.lowerTopLevel config extended).1 <;> rfl

namespace Lowering

theorem block_append_run (first second : List Stmt) (context : Context) (progress : Progress) :
    (block (first ++ second)).run context progress =
      match (block first).run context progress with
      | (.error failure, later) => (.error failure, later)
      | (.ok code, middle) =>
        match (block second).run context middle with
        | (.error failure, later) => (.error failure, later)
        | (.ok codes, later) => (.ok (code ++ codes), later) := by
  induction first generalizing progress with
  | nil =>
    have hnil : (block []).run context progress = (.ok [], progress) := rfl
    rw [nil_append, hnil]
    dsimp only
    rcases (block second).run context progress with ⟨_ | codes, later⟩ <;> rfl
  | cons stmt rest ih =>
    rw [cons_append, block, block, Lower.run_bind, Lower.run_bind]
    rcases (Lowering.stmt stmt).run context progress with ⟨_ | code, middle⟩
    · rfl
    · dsimp only
      rw [Lower.run_bind, Lower.run_bind, ih middle]
      rcases (block rest).run context middle with ⟨_ | codes, later⟩
      · rfl
      · dsimp only [Lower.run, pure, Lower.pure]
        rcases block second context later with ⟨_ | others, last⟩
        · rfl
        · exact congrArg (fun code => (Except.ok code, last)) (append_assoc code codes others).symm

end Lowering

/-! ### Calls -/

/-- The names that code of a unit calls. -/
def CompiledUnit.Callable (u : CompiledUnit) (name : String) : Prop :=
  name ∈ u.functions.map (·.name) ∨ name ∈ u.helpers.map (·.name)

theorem CompiledUnit.Carries.callable {progress : Lowering.Progress} (h : u.Carries progress)
    {helper : Helper} (hhelper : helper ∈ progress.helpers) : u.Callable helper.name :=
  .inr (mem_map.2 ⟨_, h.helpers helper hhelper, name_function _ helper⟩)

namespace Compiled

variable (h : Compiled config env program u)

include h

theorem callable_of_mem_callables {name : String}
    (hname : name ∈ (program.context config env).callables) : u.Callable name := by
  refine .inl ?_
  rw [h.names, program.routine_names]
  exact hname

theorem calls_within {fn : Func} (hfn : fn ∈ u.functions ∨ fn ∈ u.helpers) :
    ∀ callee ∈ InstrOf.allCallees fn.body, callee.Within u.Callable := by
  rcases hfn with hfunction | hhelper
  · obtain ⟨routine, -, later, hrun, hcarries⟩ := h.routine_of_function fn hfunction
    exact Lowering.Body.calls_within hrun (fun _ => h.callable_of_mem_callables)
      fun _ => hcarries.callable
  · obtain ⟨helper, rfl, hcarries⟩ := h.helpers fn hhelper
    intro callee hcallee
    rw [allCallees_function] at hcallee
    rcases mem_append.1 hcallee with hmem | hmem
    · obtain ⟨called, hcalled, rfl⟩ := mem_map.1 hmem
      exact hcarries.callable hcalled
    · obtain ⟨called, -, rfl⟩ := mem_map.1 hmem
      trivial

/-- A unit calls the same functions when another unit with the same routines, and at least its
helpers, is loaded in its place. -/
theorem linkedBy_load {program' : Program} (h' : Compiled config env program' u')
    (hroutines : program'.routines = program.routines) (hfunctions : u'.functions = u.functions)
    (hhelpers : u.helpers ⊆ u'.helpers)
    (hfree : ∀ helper : Helper, helper.name ∉ program.routines.map (·.2)) (m m' : Machine) :
    LinkedBy .named u.Callable (m.load u).functions (m'.load u').functions := by
  refine .of_same id ?_ ?_
  · rintro name (hname | hname)
    · rw [h.find?_routine hfree hname, h'.find?_routine (hroutines ▸ hfree) (hfunctions ▸ hname),
        hfunctions]
    · obtain ⟨fn, hfn, rfl⟩ := mem_map.1 hname
      rw [h.find?_helper hfn, h'.find?_helper (hhelpers hfn)]
  · rintro name fn (hname | hname) hfind
    · rw [h.find?_routine hfree hname] at hfind
      exact h.calls_within (.inl (mem_reverse.1 (mem_of_find?_eq_some hfind)))
    · obtain ⟨helper, hhelper, rfl⟩ := mem_map.1 hname
      rw [h.find?_helper hhelper, Option.some.injEq] at hfind
      exact h.calls_within (.inr (hfind ▸ hhelper))

end Compiled

/-! ### Top levels -/

namespace Incremental

open Lowering (Context Progress Shape tempName)

variable {context : Context}

/-- A top level body: its code, then the value of the last expression statement. -/
structure TopLevel (main : Func) (count : Nat) (code : Code) : Prop where
  params : main.params = []
  locals : main.locals = [scratchLocal] ++ (List.range count).map tempName
  body : main.body = code ++ [.localGet scratchLocal]

/-- The top levels of a unit, of the unit that goes on, and of both as one. The code of the second
stands in the third under other names, after the code of the first. -/
structure Joined (context : Context) (escapes : Prop) (main main₂ main' : LoweredBody)
    (count count₂ : Nat) (code code₂ code₂' : Code) : Prop where
  first : ∃ fn, main.1 = .ok fn ∧ TopLevel fn count code
  second : ∃ fn, main₂.1 = .ok fn ∧ TopLevel fn count₂ code₂
  both : ∃ fn, main'.1 = .ok fn ∧ TopLevel fn (count + count₂) (code ++ code₂')
  first_helpers : main.2.helpers ⊆ main'.2.helpers
  second_helpers : main₂.2.helpers ⊆ main'.2.helpers
  first_renamed : ∀ known : String → Prop, (∀ name ∈ context.callables, known name) →
    (∀ helper ∈ main.2.helpers, known helper.name) → ∀ limit,
    Renamed (.shifted 0 count limit) known escapes 0 code code
  second_renamed : ∀ known : String → Prop, (∀ name ∈ context.callables, known name) →
    (∀ helper ∈ main₂.2.helpers, known helper.name) → ∀ limit,
    Renamed (.shifted count count₂ limit) known True 0 code₂ code₂'

/-- The shape of top level code whose temporaries are `offset` numbers higher. -/
def shape (offset bound limit : Nat) (known : String → Prop) (escapes : Prop) : Shape :=
  { naming := .shifted offset bound limit, known, escapes }

theorem admits_shape {progress later : Progress} {known : String → Prop}
    (hcallables : ∀ name ∈ context.callables, known name)
    (hhelpers : ∀ helper ∈ progress.helpers, known helper.name) (start : Progress)
    (offset limit : Nat) (escapes : Prop) :
    Lowering.Admits (.shifted offset (context.binding [])) start (progress, later)
      (shape offset progress.temps limit known escapes) where
  locals name hname := by
    simp [Lowering.Versions.shifted, Context.binding, Environment.isLocal, Environment.enter]
      at hname
  scratch := .inr ⟨rfl, rfl⟩
  temps index _ hindex := ⟨⟨index, hindex, rfl, rfl⟩, .inl ⟨index, hindex, rfl, rfl⟩, nofun⟩
  callables := hcallables
  helpers helper hmem _ := hhelpers helper hmem
  inlines h := absurd h Bool.false_ne_true
  scope := nofun

/-- The top level of the unit that goes on and that of both as one lower, or fail alike. -/
theorem joined_or_fail {main : LoweredBody}
    (hmain : (Lowering.topLevel program.inits program.stmts).run context {} = main)
    (hok : ∃ fn, main.1 = .ok fn) (more : List Stmt) :
    (∃ failure, ((Lowering.topLevel [] more).run context {}).1 = .error failure ∧
      ((Lowering.topLevel program.inits (program.stmts ++ more)).run context {}).1 =
        .error failure) ∨
    ∃ count count₂ code code₂ code₂', Joined context (Stmt.anyReturns program.stmts = true) main
        ((Lowering.topLevel [] more).run context {})
        ((Lowering.topLevel program.inits (program.stmts ++ more)).run context {})
        count count₂ code code₂ code₂' := by
  obtain ⟨fn, hfn⟩ := hok
  obtain ⟨start, first, code, second, hstart, hcode, hfunc, hlater⟩ :=
    Lowering.Body.run_eq_ok_iff.1 (hmain.trans (Prod.ext hfn rfl))
  have hpair : Lowering.Renumbering (.shifted second.temps (context.binding [])) [] _ ({}, second)
      ((Lowering.block more).run (context.binding []) {})
      ((Lowering.block more).run (context.binding []) second) :=
    Lowering.block_renumbers (v := .shifted second.temps _) more False.elim (.unknown rfl) {} second
      (.of_subset (Nat.zero_add _).symm fun _ hmem => nomatch hmem)
  have hblock := Lowering.block_append_run program.stmts more (context.binding []) first
  have hnone : (Lowering.globalInits []).run (context.binding []) {} = (.ok [], {}) := rfl
  rw [Lowering.Body.run_eq, Lowering.Body.run_eq]
  dsimp only [Lowering.topLevel, Lowering.Body.start, Lowering.Body.bound, Lowering.Body.locals,
    cond_true, nil_append] at hstart hcode ⊢
  rw [hcode] at hblock
  rw [hstart, hnone]
  dsimp only at hblock ⊢
  rw [hblock]
  generalize (Lowering.block more).run (context.binding []) {} = outcome at hpair
  generalize hrun : (Lowering.block more).run (context.binding []) second = outcome' at hpair
  cases hpair with
  | error failure later later' => exact .inl ⟨failure, rfl, rfl⟩
  | @ok code₂ code₂' later later' _ _ hbehind _ hrelated =>
    refine .inr ⟨second.temps, later.temps, start ++ code, code₂, code₂', ?_⟩
    obtain ⟨hwithin, -⟩ :=
      (Lowering.block_renumbers (v := .shifted 0 _) more False.elim (.unknown rfl)).self hrun
    have hhelpers : second.helpers = main.2.helpers := congrArg (·.helpers) hlater
    refine ⟨⟨fn, hfn, ?_⟩, ⟨_, rfl, rfl, rfl, rfl⟩, ⟨_, rfl, rfl, ?_, ?_⟩, ?_, hbehind.subset,
      ?_, ?_⟩
    · rw [← hfunc]
      exact ⟨rfl, rfl, rfl⟩
    · rw [Progress.tempNames, hbehind.temps, Nat.add_comm]
      rfl
    · simp only [Lowering.Body.func, append_assoc]
      rfl
    · rw [← hhelpers]
      exact hwithin.helpers
    · intro known hcallables hknown limit
      rw [← hhelpers] at hknown
      have hadmits := fun start => @admits_shape context second second known hcallables hknown start
        0 limit (Stmt.anyReturns program.stmts = true)
      obtain ⟨-, -, hstartRenamed⟩ :=
        (Lowering.globalInits_renumbers (v := .shifted 0 _) program.inits False.elim).self hstart
      obtain ⟨hwithin', -, hcodeRenamed⟩ := (Lowering.block_renumbers (v := .shifted 0 _)
        program.stmts False.elim (.unknown rfl)).self hcode
      exact ((hstartRenamed _ ((hadmits _).within hwithin' hwithin')).append
        (hcodeRenamed _ (hadmits _) id)).renamed 0
    · intro known hcallables hknown limit
      have hadmits : Lowering.Admits (.shifted second.temps (context.binding [])) {} (later, later')
          (shape second.temps later.temps limit known True) :=
        @admits_shape context later later' known hcallables hknown {} second.temps limit True
      exact (hrelated _ hadmits fun _ => trivial).renamed 0

/-- What the units of a program, of the program that goes on, and of both as one have in common. -/
structure Continues (program : Program) (u u₂ u' : CompiledUnit) (count count₂ : Nat)
    (code code₂ code₂' : Code) : Prop where
  env : u₂.env = u'.env
  functions₂ : u₂.functions = u.functions
  functions' : u'.functions = u.functions
  helpers : u.helpers ⊆ u'.helpers
  helpers₂ : u₂.helpers ⊆ u'.helpers
  first : TopLevel u.main count code
  second : TopLevel u₂.main count₂ code₂
  both : TopLevel u'.main (count + count₂) (code ++ code₂')
  first_renamed : ∀ limit, Renamed (.shifted 0 count limit) u.Callable
    (Stmt.anyReturns program.stmts = true) 0 code code
  second_renamed : ∀ limit, Renamed (.shifted count count₂ limit) u₂.Callable True 0 code₂ code₂'

theorem assemble_helpers_subset {bodies' : List LoweredBody} (functions functions' : List Func)
    (h : LoweredBody.helpers bodies ⊆ LoweredBody.helpers bodies') :
    (assemble config env bodies functions).helpers ⊆
      (assemble config env bodies' functions').helpers := by
  refine map_subset _ fun helper hhelper => mem_closure.2 ?_
  rcases mem_closure.1 hhelper with hused | ⟨caller, hcaller, hdependency⟩
  · exact .inl (h hused)
  · exact .inr ⟨caller, h hcaller, hdependency⟩

theorem helpers_snoc_subset {routines : List LoweredBody} {top top' : LoweredBody}
    (h : top.2.helpers ⊆ top'.2.helpers) :
    LoweredBody.helpers (routines ++ [top]) ⊆ LoweredBody.helpers (routines ++ [top']) := by
  simpa [LoweredBody.helpers] using
    append_subset.2 ⟨subset_append_left _ _, subset_append_of_subset_right _ h⟩

theorem assemble_snoc (config : Config) (env : Environment) (bodies : List LoweredBody)
    (functions : List Func) (main : Func) :
    (assemble config env bodies (functions ++ [main])).functions = functions ∧
      (assemble config env bodies (functions ++ [main])).main = main := by
  simp [assemble]

theorem callable_of_top (hnames : functions.map (·.name) = program.routines.map (·.2)) :
    let u := assemble config env.leave (program.lowered config env) (functions ++ [main])
    (∀ name ∈ (program.context config env).callables, u.Callable name) ∧
      ∀ helper ∈ (program.lowerTopLevel config env).2.helpers, u.Callable helper.name := by
  intro u
  constructor
  · intro name hname
    refine .inl ?_
    rw [(assemble_snoc ..).1, hnames, program.routine_names]
    exact hname
  · intro helper hhelper
    have hmem : program.lowerTopLevel config env ∈ program.lowered config env := by
      rw [program.lowered_eq]
      exact mem_append_right _ (mem_singleton_self _)
    exact (carries_of_mem hmem).callable hhelper

/-- **A program that goes on compiles as both at once do.** -/
theorem compiles_or_fails (hu : compile config {} program = .ok u) (more : List Stmt) :
    (∃ failure, compile config u.env (program.next more) = .error failure ∧
      compile config {} (program.whole more) = .error failure) ∨
    ∃ u₂ u', compile config u.env (program.next more) = .ok u₂ ∧
      compile config {} (program.whole more) = .ok u' ∧ ∃ count count₂ code code₂ code₂',
        Continues program u u₂ u' count count₂ code code₂ code₂' := by
  obtain ⟨extended, functions, hextend, hfit, hmain, hfunctions, rfl⟩ := compile_eq_ok_iff.1 hu
  rw [program.lowered_eq, map_append] at hfunctions
  obtain ⟨routines, tops, rfl, hroutines, htops⟩ := map_eq_append_iff.1 hfunctions.symm
  obtain ⟨main, rfl, htop⟩ := map_eq_singleton_iff.1 htops
  have hnames := names_of_lowered (hroutines.trans (map_map ..))
  have hnext := compile_of_routines (extend_next hextend more) hfit hmain hroutines.symm
  have hwhole := @compile_of_routines extended {} _ (program.whole more) config hextend hfit hmain
    hroutines.symm
  have henv : (assemble config extended.leave (program.lowered config extended)
      (routines ++ [main])).env = extended := leave_of_extend hextend
  rw [henv, hnext, hwhole]
  rcases joined_or_fail rfl ⟨main, htop.symm⟩ more with
    ⟨failure, hfail, hfail'⟩ | ⟨count, count₂, code, code₂, code₂', hjoined⟩
  · refine .inl ⟨failure.ofUnit, ?_, ?_⟩
    · rw [show ((program.next more).lowerTopLevel config extended).1 = .error failure from hfail]
    · rw [show ((program.whole more).lowerTopLevel config extended).1 = .error failure from hfail']
  · obtain ⟨fn, hfn, hfirst⟩ := hjoined.first
    obtain ⟨fn₂, hfn₂, hsecond⟩ := hjoined.second
    obtain ⟨fn', hfn', hboth⟩ := hjoined.both
    obtain rfl : main = fn := Except.ok.inj (htop.trans hfn)
    refine .inr ⟨assemble config extended.leave ((program.next more).lowered config extended)
        (routines ++ [fn₂]),
      assemble config extended.leave ((program.whole more).lowered config extended)
        (routines ++ [fn']),
      ?_, ?_, count, count₂, code, code₂, code₂', ?_⟩
    · rw [show ((program.next more).lowerTopLevel config extended).1 = .ok fn₂ from hfn₂]
    · rw [show ((program.whole more).lowerTopLevel config extended).1 = .ok fn' from hfn']
    · obtain ⟨hcallables, hhelpers⟩ := @callable_of_top extended routines main program config hnames
      obtain ⟨hcallables₂, hhelpers₂⟩ :=
        @callable_of_top extended routines fn₂ (program.next more) config hnames
      refine ⟨rfl, ?_, ?_, ?_, ?_, ?_, ?_, ?_, ?_, ?_⟩
      · rw [(assemble_snoc ..).1, (assemble_snoc ..).1]
      · rw [(assemble_snoc ..).1, (assemble_snoc ..).1]
      · refine assemble_helpers_subset _ _ ?_
        rw [program.lowered_eq, (program.whole more).lowered_eq]
        exact helpers_snoc_subset hjoined.first_helpers
      · refine assemble_helpers_subset _ _ ?_
        rw [(program.next more).lowered_eq, (program.whole more).lowered_eq]
        exact helpers_snoc_subset hjoined.second_helpers
      · rw [(assemble_snoc ..).2]
        exact hfirst
      · rw [(assemble_snoc ..).2]
        exact hsecond
      · rw [(assemble_snoc ..).2]
        exact hboth
      · exact hjoined.first_renamed _ hcallables hhelpers
      · exact hjoined.second_renamed _ hcallables₂ hhelpers₂

/-! ### Runs -/

/-- Two runs that leave the same memory and the same printed lines, and trap alike. -/
structure EndsAlike (effect other : Machine.Effect Word) : Prop where
  memory : other.2.memory = effect.2.memory
  output : other.2.output = effect.2.output
  trap : ∀ trap, other.1 = .error trap ↔ effect.1 = .error trap

/-- What the call of a top level body gives once its code has run. -/
def concluded (result : Result) : Machine.Effect Word :=
  match andThen result (exec [.localGet scratchLocal]) with
  | (.trap trap, s) => (.error trap, s.machine)
  | (_, s) =>
    match s.stack with
    | [] => (.error .stackUnderflow, s.machine)
    | word :: _ => (.ok word, s.machine)

theorem runMain_eq (h : Compiled config env program u) (htop : TopLevel u.main count code)
    (m : Machine) : m.runMain u =
      concluded (exec code { machine := m.load u, locals := Frame.ofCall u.main [] }) := by
  rw [Machine.runMain, Machine.call_eq, h.function?_main m]
  dsimp only
  rw [Exec.call, htop.body, exec_append]
  rfl

theorem concluded_next {t : State} (hscratch : (t.locals.get? scratchLocal).isSome) :
    (t.machine.fuel = 0 ∧ concluded (.next, t) = (.error .outOfFuel, t.machine)) ∨
      (t.machine.fuel ≠ 0 ∧ ∃ word, concluded (.next, t) = (.ok word, t.burn.machine)) := by
  obtain ⟨word, hword⟩ := isSome_iff_exists.1 hscratch
  by_cases hfuel : t.machine.fuel = 0
  · refine .inl ⟨hfuel, ?_⟩
    rw [concluded, andThen, exec_cons, if_pos hfuel]
  · refine .inr ⟨hfuel, word, ?_⟩
    have hget : t.burn.locals.get? scratchLocal = some word := hword
    have hstep : step exec looped (.localGet scratchLocal) t.burn = (.next, t.burn.push word) := by
      simp only [step, hget]
    rw [concluded, andThen, exec_cons, if_neg hfuel, hstep]
    rfl

theorem concluded_endsAlike {offset bound limit : Nat} {below : List Word} {result other : Result}
    (h : Repeats (.shifted offset bound limit) functions below result other)
    (hconcludes : Trap.concludes (concluded result).1 = true) :
    EndsAlike (concluded result) (concluded other) := by
  obtain ⟨flow, t⟩ := result
  have hconclusive : Mode.named.concludes flow = true := by
    cases flow with
    | trap trap => exact hconcludes
    | _ => rfl
  obtain ⟨fuel, locals, ⟨hfuel, hlocals, -⟩, rfl⟩ := h hconclusive
  cases flow with
  | next =>
    rcases concluded_next hlocals.scratch with ⟨-, hout⟩ | ⟨hpos, word, hword⟩
    · rw [hout] at hconcludes
      cases hconcludes
    · have hscratch : ((t.moved functions fuel locals below).locals.get? scratchLocal).isSome :=
        hlocals.scratch'
      rcases concluded_next hscratch with ⟨hzero, -⟩ | ⟨-, word', hword'⟩
      · exact absurd (le_zero.1 (LE.le.trans_eq hfuel hzero)) hpos
      · dsimp only
        rw [hword, hword']
        exact ⟨rfl, rfl, fun trap => by simp⟩
  | branch | ret =>
    obtain ⟨tm, frame, stack⟩ := t
    cases stack with
    | nil => cases hconcludes
    | cons word rest => exact ⟨rfl, rfl, fun trap => Iff.rfl⟩
  | trap trap => exact ⟨rfl, rfl, fun trap => Iff.rfl⟩

theorem TopLevel.get?_temp (h : TopLevel main count code) {index : Nat} (hindex : index < count) :
    (Frame.ofCall main []).get? (tempName index) = some 0 := by
  refine get?_ofCall_local (by rw [h.params]; exact not_mem_nil) ?_ []
  rw [h.locals]
  exact mem_append_right _ (mem_map_of_mem (mem_range.2 hindex))

theorem TopLevel.get?_scratch (h : TopLevel main count code) :
    ((Frame.ofCall main []).get? scratchLocal).isSome := by
  rw [get?_ofCall_local (by rw [h.params]; exact not_mem_nil) ?_ []]
  · rfl
  · rw [h.locals]
    exact mem_append_left _ (mem_singleton_self _)

theorem Continues.first_frames (h : Continues program u u₂ u' count count₂ code code₂ code₂') :
    Renaming.FramesShifted 0 count (count + count₂) (Frame.ofCall u.main [])
      (Frame.ofCall u'.main []) where
  temps index hindex := ⟨0, h.first.get?_temp hindex, h.both.get?_temp (by omega)⟩
  spare index _ hindex := h.both.get?_temp hindex
  scratch := h.first.get?_scratch
  scratch' := h.both.get?_scratch

theorem Continues.second_frames (h : Continues program u u₂ u' count count₂ code code₂ code₂')
    {frame frame' : Frame}
    (hframes : Renaming.FramesShifted 0 count (count + count₂) frame frame') :
    Renaming.FramesShifted count count₂ (count + count₂) (Frame.ofCall u₂.main []) frame' where
  temps index hindex := ⟨0, h.second.get?_temp hindex, hframes.spare _ (by omega) (by omega)⟩
  spare index _ _ := by omega
  scratch := h.second.get?_scratch
  scratch' := hframes.scratch'

section Runs

variable {more : List Stmt} {m : Machine} {word : Word}

section

variable (h : Continues program u u₂ u' count count₂ code code₂ code₂')
  (hu : Compiled config env program u)
include h hu

/-- **A unit that returns leaves the code of the next one where both as one go on.** -/
theorem Continues.first_run (hu' : Compiled config env (program.whole more) u')
    (hfree : ∀ helper : Helper, helper.name ∉ program.routines.map (·.2))
    (hreturns : Stmt.anyReturns program.stmts = false) (hword : (m.runMain u).1 = .ok word) :
    ∃ (t : State) (fuel : Nat) (locals : Frame), (m.runMain u).2 = t.burn.machine ∧
      t.machine.fuel ≤ fuel ∧ Renaming.FramesShifted 0 count (count + count₂) t.locals locals ∧
      exec code { machine := m.load u', locals := Frame.ofCall u'.main [] } =
        (.next, t.moved (m.load u').functions fuel locals []) := by
  have hrenamed : Renamed (.shifted 0 count (count + count₂)) u.Callable False 0 code code := by
    simpa [hreturns] using h.first_renamed (count + count₂)
  have hrun := runMain_eq hu h.first m
  have hrepeats := (Renamed.runs_repeat (hu.linkedBy_load hu' rfl h.functions' h.helpers hfree m m)
    ((m.load u).fuel + 1)).1 _ rfl False 0 code code []
    { machine := m.load u, locals := Frame.ofCall u.main [] } (m.load u).fuel
    (Frame.ofCall u'.main []) hrenamed rfl (lt_succ_self _) ⟨Nat.le_refl _, h.first_frames, nofun⟩
  have hconfined := hrenamed.exec_confined { machine := m.load u, locals := Frame.ofCall u.main [] }
  rcases hexec : exec code { machine := m.load u, locals := Frame.ofCall u.main [] } with ⟨flow, t⟩
  rw [hexec] at hrun hrepeats hconfined
  rcases hconfined with hnext | ⟨trap, htrap⟩
  · obtain rfl : flow = .next := hnext
    obtain ⟨fuel, locals, ⟨hfuel, hlocals, -⟩, hother⟩ := hrepeats rfl
    refine ⟨t, fuel, locals, ?_, hfuel, hlocals, hother⟩
    rcases concluded_next hlocals.scratch with ⟨-, hout⟩ | ⟨-, value, hvalue⟩
    · rw [hrun, hout] at hword
      cases hword
    · rw [hrun, hvalue]
  · obtain rfl : flow = .trap trap := htrap
    rw [hrun] at hword
    cases hword

/-- **Units one after another do what both as one do.** -/
theorem Continues.runs (hu₂ : Compiled config env (program.next more) u₂)
    (hu' : Compiled config env (program.whole more) u')
    (hfree : ∀ helper : Helper, helper.name ∉ program.routines.map (·.2))
    (hreturns : Stmt.anyReturns program.stmts = false) (hword : (m.runMain u).1 = .ok word)
    (hconcludes : Trap.concludes ((m.runMain u).2.runMain u₂).1 = true) :
    EndsAlike ((m.runMain u).2.runMain u₂) (m.runMain u') := by
  obtain ⟨t, fuel, locals, hafter, hfuel, hlocals, hfirst⟩ :=
    h.first_run hu hu' hfree hreturns hword
  have hlink := hu₂.linkedBy_load hu' rfl (h.functions'.trans h.functions₂.symm) h.helpers₂ hfree
    t.burn.machine m
  -- The words that the first code left behind are out of reach for the second.
  have hrepeats :=
    (Renamed.runs_repeat hlink ((t.burn.machine.load u₂).fuel + 1)).1 _ rfl True 0 code₂
    code₂' t.stack { machine := t.burn.machine.load u₂, locals := Frame.ofCall u₂.main [] } fuel
    locals (h.second_renamed (count + count₂)) rfl (lt_succ_self _)
    ⟨(sub_le _ _).trans hfuel, h.second_frames hlocals, nofun⟩
  have hstate : State.moved
      { machine := t.burn.machine.load u₂, locals := Frame.ofCall u₂.main [] }
      (m.load u').functions fuel locals t.stack = t.moved (m.load u').functions fuel locals [] :=
    congrArg (State.mk _ _) (append_nil t.stack).symm
  rw [hafter, runMain_eq hu₂ h.second] at hconcludes ⊢
  rw [runMain_eq hu' h.both, exec_append, hfirst, ← hstate]
  exact concluded_endsAlike hrepeats hconcludes

end

end Runs

end Incremental

/-- **Units one after another compile and run as one unit does.** Names as a source gives them are
none of a helper, by `Program.helper_free`. -/
theorem incremental_compilation {config : Config} {program : Program} {u : CompiledUnit}
    (hu : compile config {} program = .ok u) (more : List Stmt) :
    (∀ failure, compile config u.env (program.next more) = .error failure ↔
      compile config {} (program.whole more) = .error failure) ∧
    ((∃ u₂, compile config u.env (program.next more) = .ok u₂) ↔
      ∃ u', compile config {} (program.whole more) = .ok u') ∧
    ∀ u₂ u', compile config u.env (program.next more) = .ok u₂ →
      compile config {} (program.whole more) = .ok u' → u₂.env = u'.env ∧
        ((∀ helper : Helper, helper.name ∉ program.routines.map (·.2)) →
          Stmt.anyReturns program.stmts = false →
          ∀ (m : Machine) (word : Word), (m.runMain u).1 = .ok word →
            ((m.runMain u).2.runMain u₂).1 ≠ .error .outOfFuel →
            ((m.runMain u).2.runMain u₂).1 ≠ .error .stackUnderflow →
            Incremental.EndsAlike ((m.runMain u).2.runMain u₂) (m.runMain u')) := by
  rcases Incremental.compiles_or_fails hu more with
    ⟨failure, hnext, hwhole⟩ | ⟨u₂, u', hnext, hwhole, _, _, _, _, _, hcontinues⟩
  · simp [hnext, hwhole]
  · refine ⟨by simp [hnext, hwhole], by simp [hnext, hwhole], ?_⟩
    intro v₂ v' hv₂ hv'
    obtain rfl : u₂ = v₂ := Except.ok.inj (hnext.symm.trans hv₂)
    obtain rfl : u' = v' := Except.ok.inj (hwhole.symm.trans hv')
    refine ⟨hcontinues.env, fun hfree hreturns m word hword hfuel hstack => ?_⟩
    obtain ⟨extended, hextend, -, hcompiled⟩ := Compiled.of_compile hu
    obtain ⟨extended₂, hextend₂, -, hcompiled₂⟩ := Compiled.of_compile hnext
    obtain ⟨extended', hextend', -, hcompiled'⟩ := Compiled.of_compile hwhole
    obtain rfl : extended = extended' := Except.ok.inj (hextend.symm.trans hextend')
    rw [hcompiled.env_eq, leave_of_extend hextend, extend_next hextend more] at hextend₂
    obtain rfl : extended = extended₂ := Except.ok.inj hextend₂
    refine hcontinues.runs hcompiled hcompiled₂ hcompiled' hfree hreturns hword ?_
    generalize ((m.runMain u).2.runMain u₂).1 = outcome at hfuel hstack
    rcases outcome with (_ | _) | _ <;>
      first | rfl | exact absurd rfl hfuel | exact absurd rfl hstack

namespace Incremental

/-- How a run ended, and the lines printed until then. -/
def ending (effect : Machine.Effect Word) : Except Trap Word × List String :=
  (effect.1, effect.2.output.toList)

/-- How a unit ends on a fresh machine, the unit that goes on after it, and both as one. -/
def endings? (config : Config) (program : Program) (more : List Stmt) :
    Option (List (Except Trap Word × List String)) := do
  let u ← (compile config {} program).toOption
  let u₂ ← (compile config u.env (program.next more)).toOption
  let u' ← (compile config {} (program.whole more)).toOption
  let m ← (Machine.start? config).toOption
  return [ending (m.runMain u), ending ((m.runMain u).2.runMain u₂), ending (m.runMain u')]

theorem toOption_eq_some_iff {ε α : Type} {outcome : Except ε α} {value : α} :
    outcome.toOption = some value ↔ outcome = .ok value := by
  cases outcome <;> simp [Except.toOption]

theorem endings?_eq_some_iff {more : List Stmt} {endings : List (Except Trap Word × List String)} :
    endings? config program more = some endings ↔ ∃ u u₂ u' m, compile config {} program = .ok u ∧
        compile config u.env (program.next more) = .ok u₂ ∧
        compile config {} (program.whole more) = .ok u' ∧ Machine.start? config = .ok m ∧
        [ending (m.runMain u), ending ((m.runMain u).2.runMain u₂), ending (m.runMain u')] =
          endings := by
  simp only [endings?, bind, bind_eq_some_iff, toOption_eq_some_iff, pure, Option.some.injEq]
  constructor
  · rintro ⟨u, hu, u₂, hu₂, u', hu', m, hm, hendings⟩
    exact ⟨u, u₂, u', m, hu, hu₂, hu', hm, hendings⟩
  · rintro ⟨u, u₂, u', m, hu, hu₂, hu', hm, hendings⟩
    exact ⟨u, hu, u₂, hu₂, u', hu', m, hm, hendings⟩

def listing : Program where
  inits := [{ name := "xs", ty := .list .number, value := .none }]
  stmts := [.assign (.single (.id "xs") (.list .number))
    (.listOf .number [.ofLiteral (.num 20), .ofLiteral (.num 22)])]

/-- Statements that join the list to itself and print how long that is. -/
def joining : List Stmt :=
  [.assign (.single (.id "xs") (.list .number))
    (.binary (.list .number) .plus (.id (.list .number) "xs") (.id (.list .number) "xs")),
   .expr (.printOf (.builtin1 .number .len (.id (.list .number) "xs")))]

theorem listing_then_joining :
    ∃ u u₂ u' m, compile {} {} listing = .ok u ∧ compile {} u.env (listing.next joining) = .ok u₂ ∧
      compile {} {} (listing.whole joining) = .ok u' ∧ Machine.start? {} = .ok m ∧
      u₂.env = u'.env ∧ ((m.runMain u).2.runMain u₂).2.output = #["4"] ∧
      EndsAlike ((m.runMain u).2.runMain u₂) (m.runMain u') := by
  have hendings : endings? {} listing joining =
      some [(.ok 0, []), (.ok 4, ["4"]), (.ok 4, ["4"])] := by decide +kernel
  obtain ⟨u, u₂, u', m, hu, hu₂, hu', hm, hends⟩ := endings?_eq_some_iff.1 hendings
  simp only [ending, List.cons.injEq, Prod.mk.injEq] at hends
  obtain ⟨⟨hfirst, -⟩, ⟨hsecond, houtput⟩, -⟩ := hends
  obtain ⟨-, -, hboth⟩ := incremental_compilation hu joining
  obtain ⟨henv, hruns⟩ := hboth u₂ u' hu₂ hu'
  refine ⟨u, u₂, u', m, hu, hu₂, hu', hm, henv, ?_, ?_⟩
  · exact Array.ext' houtput
  · exact hruns (Program.helper_free (by decide) (by decide)) rfl m 0 hfirst (by simp [hsecond])
      (by simp [hsecond])

/-- A unit that passes an argument to a function without parameters. -/
def overfull : Program where
  funs := [{ name := "zero", parameters := [], body := [.ret (.ofLiteral (.num 0))] },
    { name := "same", parameters := [{ name := "x", ty := .number }],
      body := [.ret (.id .number "x")] }]
  stmts := [.expr (.call .number "zero" [.ofLiteral (.num 5)])]

/-- A statement that passes no argument to a function with a parameter. -/
def underfull : List Stmt := [.expr (.printOf (.call .number "same" []))]

/-- A unit that joins lists. A method of its class without a name has the name of the helper that
does so. -/
def nameless : Program where
  classes := [{
    name := ""
    fields := [{ name := "a", ty := .number, value := .num 0 }]
    methods := [{
      name := "list_copy"
      parameters := [{ name := "self", ty := .cls "" }]
      body := [.ret (.ofLiteral (.num 7))] }] }]
  stmts := [.expr (.binary (.list .number) .plus (.listOf .number [.ofLiteral (.num 1)])
    (.listOf .number []))]

/-- A statement that calls the method. -/
def calling : List Stmt :=
  [.expr (.printOf (.methodCall .number (.construct (.cls "") "" []) "list_copy" []))]

/-- Words that a call leaves behind, and helpers that an earlier unit brought, tell units one after
another from both as one: plain and distinct names do not rule that out. -/
theorem plain_units_differ : (overfull.PlainNames ∧ (overfull.routines.map (·.2)).Nodup ∧
      Stmt.anyReturns overfull.stmts = false ∧ endings? {} overfull underfull =
        some [(.ok 0, []), (.error .stackUnderflow, []), (.ok 5, ["5"])]) ∧
    nameless.PlainNames ∧ (nameless.routines.map (·.2)).Nodup ∧
      Stmt.anyReturns nameless.stmts = false ∧ endings? {} nameless calling =
        some [(.ok 65592, []), (.ok 7, ["7"]), (.ok 65652, ["65652"])] := by
  decide +kernel

end Incremental

end TypedWasm
