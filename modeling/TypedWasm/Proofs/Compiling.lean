import TypedWasm.Compile
import TypedWasm.Proofs.Failing

/-!
# Compilations taken apart

What a unit that compiled is made of: its environment, its lowered bodies and the helpers and
intrinsics they use.
-/

namespace TypedWasm

open Failing Helper List

variable {bodies : List LoweredBody} {functions : List Func} {program : Program} {config : Config}
  {env : Environment} {u : CompiledUnit} {helper : Helper}

namespace Lowering

variable {func : Func} {name : String}

def Context.binding (context : Context) (names : List String) : Context :=
  { context with env := context.env.enter names }

def Progress.finished (progress : Progress) : Progress := { progress with temps := 0 }

variable {context : Context} {progress later : Progress}

namespace Body

/-- The names that a body binds. -/
def bound (body : Body) : List String := body.params ++ body.locals

/-- What a body comes to, without the environment it hands on. -/
def run (body : Body) (context : Context) (progress : Progress) : LoweredBody :=
  (body.lower context progress).1

/-- A body comes to the same whatever names are still local, and leaves none. -/
theorem lower_binding (body : Body) (context : Context) (names : List String)
    (progress : Progress) :
    body.lower (context.binding names) progress = body.lower context progress ∧
      (body.lower context progress).2 = context.env.leave := ⟨rfl, rfl⟩

end Body

theorem newTemp_eq_ok_iff : newTemp.run context progress = (.ok name, later) ↔
      tempName progress.temps = name ∧ { progress with temps := progress.temps + 1 } = later := by
  simp [newTemp, Lower.run]

def boundNames (fn : FunDef) : List String := fn.parameters.map (·.name) ++ fn.inits.map (·.name)

/-- A body comes to a function once its variables are initialised and its statements lowered. -/
theorem Body.run_eq (body : Body) (context : Context) (progress : Progress) :
    body.run context progress =
      match body.start.run (context.binding body.bound) progress with
      | (.error failure, later) => (.error failure, later)
      | (.ok start, first) =>
        match (block body.stmts).run (context.binding body.bound) first with
        | (.error failure, later) => (.error failure, later)
        | (.ok code, second) => (.ok (body.func start code second.tempNames), second.finished) := by
  show Lower.run (do
    let start ← body.start
    let code ← block body.stmts
    return body.func start code (← takeTemps)) (context.binding body.bound) progress = _
  rw [Lower.run_bind]
  rcases body.start.run (context.binding body.bound) progress with ⟨_ | start, first⟩
  · rfl
  · dsimp only
    rw [Lower.run_bind]
    rcases (block body.stmts).run (context.binding body.bound) first with ⟨_ | code, second⟩ <;> rfl

theorem Body.run_eq_ok_iff {body : Body} : body.run context progress = (.ok func, later) ↔
      ∃ start first code second,
        body.start.run (context.binding body.bound) progress = (.ok start, first) ∧
        (block body.stmts).run (context.binding body.bound) first = (.ok code, second) ∧
        body.func start code second.tempNames = func ∧ second.finished = later := by
  rw [body.run_eq]
  constructor
  · intro h
    split at h
    · cases h
    · next start first hstart =>
      split at h
      · cases h
      · next code second hcode =>
        cases h
        exact ⟨start, first, code, second, hstart, hcode, rfl, rfl⟩
  · rintro ⟨start, first, code, second, hstart, hcode, rfl, rfl⟩
    rw [hstart]
    dsimp only
    rw [hcode]

theorem Body.name_eq {body : Body} (h : body.run context progress = (.ok func, later)) :
    func.name = body.name := by
  obtain ⟨_, _, _, _, _, _, rfl, -⟩ := Body.run_eq_ok_iff.1 h
  rfl

end Lowering

theorem find?_key_of_mem {α : Type} {key : α → String} {items : List α}
    (hkeys : (items.map key).Nodup) {item : α} (hitem : item ∈ items) :
    items.find? (key · == key item) = some item := by
  induction items with
  | nil => cases hitem
  | cons first rest ih =>
    rw [map_cons, nodup_cons] at hkeys
    rcases mem_cons.1 hitem with rfl | hrest
    · simp
    · have hne : key first ≠ key item := fun he =>
        hkeys.1 (he ▸ mem_map.2 ⟨item, hrest, rfl⟩)
      rw [find?_cons_of_neg (by simpa using hne)]
      exact ih hkeys.2 hrest

namespace LoweredBody

theorem map_of_no_failure (hoverflow : bodies.filterMap overflow? = [])
    (hfault : bodies.filterMap fault? = []) :
    bodies.map (·.1) = (bodies.filterMap (·.1.toOption)).map Except.ok := by
  induction bodies with
  | nil => rfl
  | cons body rest ih =>
    obtain ⟨_ | fn, progress⟩ := body
    · next failure =>
      cases failure with
      | fault fault => simp [fault?] at hfault
      | overflow overflow => simp [overflow?] at hoverflow
    · have hrest := ih (by simpa [overflow?] using hoverflow) (by simpa [fault?] using hfault)
      simpa [Except.toOption] using hrest

theorem no_failure_of_map (h : bodies.map (·.1) = functions.map Except.ok) :
    bodies.filterMap overflow? = [] ∧ bodies.filterMap fault? = [] ∧
      bodies.filterMap (·.1.toOption) = functions := by
  induction bodies generalizing functions with
  | nil =>
    cases functions with
    | nil => exact ⟨rfl, rfl, rfl⟩
    | cons fn rest => cases h
  | cons body rest ih =>
    cases functions with
    | nil => cases h
    | cons fn functions =>
      rw [map_cons, map_cons, List.cons.injEq] at h
      obtain ⟨hoverflow, hfault, hrest⟩ := ih h.2
      simp only [filterMap_cons, overflow?, fault?, h.1, Except.toOption]
      exact ⟨hoverflow, hfault, congrArg _ hrest⟩

theorem collect_eq_ok_iff :
    collect bodies = .ok functions ↔ bodies.map (·.1) = functions.map Except.ok := by
  constructor
  · intro h
    rw [collect] at h
    split at h
    · cases h
    · next hoverflow hfault =>
      cases h
      exact map_of_no_failure hoverflow hfault
    · cases h
  · intro h
    obtain ⟨hoverflow, hfault, hfunctions⟩ := no_failure_of_map h
    simp only [collect, hoverflow, hfault, hfunctions]

end LoweredBody

namespace Program

/-- The context all bodies of a unit are lowered in, once its declarations are in the environment.
-/
def context (program : Program) (config : Config) (env : Environment) : Lowering.Context :=
  { config, env, callables := program.funs.map (·.name) ++ program.methodNames }

def lowered (program : Program) (config : Config) (env : Environment) : List LoweredBody :=
  (lowerBodies (program.context config env) program.bodies).1

theorem routine_names (program : Program) :
    program.routines.map (·.2) = program.funs.map (·.name) ++ program.methodNames := by
  simp [routines, methodNames, map_flatMap, Function.comp_def]

theorem callables_eq_ok_iff {callables : List String} :
    program.callables = .ok callables ↔ mainName ∉ program.funs.map (·.name) ∧
      program.funs.map (·.name) ++ program.methodNames = callables := by
  by_cases h : mainName ∈ program.funs.map (·.name)
  · simp [Program.callables, h]
  · simp [Program.callables, h]

end Program

/-- Bodies clean up after themselves, so they come to what each comes to alone. -/
theorem lowerBodies_eq {bodies : List Lowering.Body} (hne : bodies ≠ [])
    (context : Lowering.Context) : lowerBodies context bodies =
      (bodies.map fun body => (lowerBody context body).1, context.env.leave) := by
  induction bodies generalizing context with
  | nil => exact absurd rfl hne
  | cons body rest ih =>
    have hleaves : (lowerBody context body).2 = context.env.leave :=
      (body.lower_binding context [] {}).2
    simp only [lowerBodies, hleaves, map_cons]
    cases rest with
    | nil => rfl
    | cons second rest =>
      -- the names left for the rest are none, which makes no difference to them
      rw [show { context with env := context.env.leave } = context.binding [] from rfl,
        ih (by simp)]
      refine congrArg (fun others => (_ :: others, _)) (map_congr_left fun other _ => ?_)
      exact congrArg Prod.fst (other.lower_binding context [] {}).1

theorem Program.lowerBodies_bodies (program : Program) (context : Lowering.Context) :
    lowerBodies context program.bodies =
      (program.bodies.map fun body => (lowerBody context body).1, context.env.leave) :=
  lowerBodies_eq (by simp [Program.bodies]) context

theorem compile_eq (config : Config) (env : Environment) (program : Program) :
    compile config env program =
      match env.extend program with
      | .error failure => .error failure.ofUnit
      | .ok extended =>
        match checkGlobalsFit extended config with
        | .error failure => .error failure.ofUnit
        | .ok () =>
          match program.callables with
          | .error fault => .error (.faults [fault])
          | .ok _ => (LoweredBody.collect (program.lowered config extended)).map
              (assemble config extended.leave (program.lowered config extended)) := by
  unfold compile
  cases env.extend program with
  | error => rfl
  | ok extended =>
    dsimp only [mapError_ok, bind, Except.bind]
    cases checkGlobalsFit extended config with
    | error => rfl
    | ok =>
      dsimp only
      cases hcallables : program.callables with
      | error => rfl
      | ok callables =>
        obtain ⟨-, rfl⟩ := Program.callables_eq_ok_iff.1 hcallables
        simp only [mapError_ok, Program.lowered, Program.context, program.lowerBodies_bodies]
        rfl

/-- **A unit that compiled.** Its declarations fit into the environment, no function takes the name
of the top level, and all bodies lowered. -/
theorem compile_eq_ok_iff : compile config env program = .ok u ↔
      ∃ extended functions, env.extend program = .ok extended ∧
        checkGlobalsFit extended config = .ok () ∧ mainName ∉ program.funs.map (·.name) ∧
        (program.lowered config extended).map (·.1) = functions.map Except.ok ∧
        assemble config extended.leave (program.lowered config extended) functions = u := by
  simp only [compile, Failing.bind_eq_ok_iff, mapError_eq_ok_iff, Failing.pure_eq_ok_iff,
    Program.callables_eq_ok_iff, LoweredBody.collect_eq_ok_iff]
  have hleft (env : Environment) :=
    congrArg Prod.snd (program.lowerBodies_bodies (program.context config env))
  constructor
  · rintro ⟨extended, hextend, _, hfit, _, ⟨hmain, rfl⟩, functions, hfunctions, hunit⟩
    refine ⟨extended, functions, hextend, hfit, hmain, hfunctions, ?_⟩
    exact (congrArg (assemble config · _ functions) (hleft extended)).symm.trans hunit
  · rintro ⟨extended, functions, hextend, hfit, hmain, hfunctions, hunit⟩
    refine ⟨extended, hextend, (), hfit, _, ⟨hmain, rfl⟩, functions, hfunctions, ?_⟩
    exact (congrArg (assemble config · _ functions) (hleft extended)).trans hunit

theorem Intrinsic.mem_inOrder {used : List Intrinsic} {intrinsic : Intrinsic} :
    intrinsic ∈ Intrinsic.inOrder used ↔ intrinsic ∈ used := by
  have hall : intrinsic ∈ Intrinsic.all := by cases intrinsic <;> decide
  simp [Intrinsic.inOrder, hall]

namespace Helper

variable {used : List Helper} {caller : Helper}

theorem name_function (slack : UInt32) (helper : Helper) :
    (helper.function slack).name = helper.name := by
  cases helper <;> rfl

theorem eq_of_name_eq {other : Helper} (h : helper.name = other.name) : helper = other := by
  have hnames : (all.map name).Nodup := by decide
  have hall : ∀ helper : Helper, helper ∈ all := by
    intro helper
    cases helper <;> decide
  have hfind := find?_key_of_mem hnames (hall helper)
  rw [h, find?_key_of_mem hnames (hall other)] at hfind
  exact (Option.some.inj hfind).symm

theorem mem_closure :
    helper ∈ closure used ↔ helper ∈ used ∨
      ∃ caller ∈ used, helper ∈ caller.helperDependencies := by
  have hall : helper ∈ all := by cases helper <;> decide
  simp [closure, inOrder, hall]

theorem helperDependencies_eq_nil (h : helper ∈ caller.helperDependencies) :
    helper.helperDependencies = [] := by
  cases caller <;> simp [helperDependencies] at h
  subst h
  rfl

theorem dependency_mem_closure (hcaller : caller ∈ closure used)
    (h : helper ∈ caller.helperDependencies) : helper ∈ closure used := by
  rcases mem_closure.1 hcaller with hused | ⟨outer, -, hdep⟩
  · exact mem_closure.2 (.inr ⟨caller, hused, h⟩)
  · rw [helperDependencies_eq_nil hdep] at h
    cases h

theorem nodup_closure_names (used : List Helper) : ((closure used).map name).Nodup := by
  have hall : (all.map name).Nodup := by decide
  exact hall.sublist (List.Sublist.map name filter_sublist)

end Helper

/-- A unit that has the helpers and intrinsics of some progress. -/
structure CompiledUnit.Carries (u : CompiledUnit) (progress : Lowering.Progress) : Prop where
  helpers : ∀ helper ∈ progress.helpers, helper.function u.config.listGrowthSlack ∈ u.helpers
  intrinsics : progress.intrinsics ⊆ u.intrinsics

structure Compiled (config : Config) (env : Environment) (program : Program) (u : CompiledUnit) :
    Prop where
  config_eq : u.config = config
  env_eq : u.env = env.leave
  main_free : mainName ∉ program.funs.map (·.name)
  names : u.functions.map (·.name) = program.routines.map (·.2)
  routine_of_function : ∀ fn ∈ u.functions, ∃ routine ∈ program.routines, ∃ later,
    (Lowering.function routine.1 routine.2).run (program.context config env) {} = (.ok fn, later) ∧
      u.Carries later
  function_of_routine : ∀ routine ∈ program.routines, ∃ fn ∈ u.functions, ∃ later,
    (Lowering.function routine.1 routine.2).run (program.context config env) {} = (.ok fn, later) ∧
      u.Carries later
  main : ∃ later, (Lowering.topLevel program.inits program.stmts).run (program.context config env)
    {} = (.ok u.main, later) ∧ u.Carries later
  helper_names : (u.helpers.map (·.name)).Nodup
  helpers : ∀ fn ∈ u.helpers, ∃ helper : Helper, fn = helper.function config.listGrowthSlack ∧
    u.Carries { helpers := helper.helperDependencies, intrinsics := helper.intrinsicDependencies }

theorem carries_of_mem {body : LoweredBody} (h : body ∈ bodies) :
    (assemble config env bodies functions).Carries body.2 := by
  constructor
  · intro helper hmem
    have hused : helper ∈ LoweredBody.helpers bodies := mem_flatMap.2 ⟨body, h, hmem⟩
    exact mem_map.2 ⟨helper, mem_closure.2 (.inl hused), rfl⟩
  · intro intrinsic hmem
    have hused : intrinsic ∈ LoweredBody.intrinsics bodies := mem_flatMap.2 ⟨body, h, hmem⟩
    exact Intrinsic.mem_inOrder.2 (mem_append_left _ hused)

theorem assemble_functions (config : Config) (extended : Environment) (bodies : List LoweredBody)
    (hfunctions : functions ≠ []) : (assemble config extended bodies functions).functions ++
      [(assemble config extended bodies functions).main] = functions := by
  show functions.dropLast ++ [functions.getLastD { name := mainName }] = functions
  rw [← dropLast_concat_getLast hfunctions]
  simp

def Program.lowerRoutine (program : Program) (config : Config) (env : Environment)
    (routine : FunDef × String) : LoweredBody :=
  (lowerBody (program.context config env) (Lowering.function routine.1 routine.2)).1

def Program.lowerTopLevel (program : Program) (config : Config) (env : Environment) :
    LoweredBody :=
  (lowerBody (program.context config env) (Lowering.topLevel program.inits program.stmts)).1

theorem Program.lowered_eq (program : Program) (config : Config) (env : Environment) :
    program.lowered config env =
      program.routines.map (program.lowerRoutine config env) ++
        [program.lowerTopLevel config env] := by
  rw [Program.lowered, lowerBodies_bodies, Program.bodies, map_append, map_map]
  rfl

theorem names_of_lowered {routines : List (FunDef × String)}
    (h : functions.map Except.ok = routines.map fun routine =>
      (program.lowerRoutine config env routine).1) :
        functions.map (·.name) = routines.map (·.2) := by
  induction routines generalizing functions with
  | nil =>
    cases functions with
    | nil => rfl
    | cons fn rest => cases h
  | cons routine routines ih =>
    cases functions with
    | nil => cases h
    | cons fn functions =>
      rw [map_cons, map_cons, List.cons.injEq] at h
      have hrun : program.lowerRoutine config env routine = (.ok fn, _) := Prod.ext h.1.symm rfl
      rw [map_cons, map_cons, ih h.2, Lowering.Body.name_eq hrun]
      rfl

/-- **A unit that compiled**, function by function. -/
theorem Compiled.of_compile (h : compile config env program = .ok u) :
    ∃ extended, env.extend program = .ok extended ∧ checkGlobalsFit extended config = .ok () ∧
      Compiled config extended program u := by
  obtain ⟨extended, functions, hextend, hfit, hmain, hfunctions, rfl⟩ := compile_eq_ok_iff.1 h
  refine ⟨extended, hextend, hfit, ?_⟩
  -- The last lowered body is the top level.
  rw [program.lowered_eq, map_append, map_map] at hfunctions
  obtain ⟨fns, tops, rfl, hfns, htops⟩ := map_eq_append_iff.1 hfunctions.symm
  obtain ⟨main, rfl, htop⟩ := map_eq_singleton_iff.1 htops
  have hcarries : ∀ body ∈ program.lowered config extended,
      (assemble config extended.leave (program.lowered config extended) (fns ++ [main])).Carries
        body.2 :=
    fun _ hmem => carries_of_mem hmem
  generalize hu : assemble config extended.leave (program.lowered config extended) (fns ++ [main]) =
    u at hcarries
  have hparts : u.functions = fns ∧ u.main = main ∧ u.config = config ∧ u.env = extended.leave := by
    simp [← hu, assemble]
  obtain ⟨rfl, rfl, hconfig, henv⟩ := hparts
  rw [program.lowered_eq] at hcarries
  refine ⟨hconfig, henv, hmain, names_of_lowered hfns, ?_, ?_, ?_, ?_, ?_⟩
  · intro fn hfn
    have hmem : (.ok fn : Except Failure Func) ∈ u.functions.map Except.ok :=
      mem_map.2 ⟨fn, hfn, rfl⟩
    rw [hfns] at hmem
    obtain ⟨routine, hroutine, hrun⟩ := mem_map.1 hmem
    refine ⟨routine, hroutine, _, Prod.ext hrun rfl, ?_⟩
    exact hcarries _ (mem_append_left _ (mem_map_of_mem hroutine))
  · intro routine hroutine
    have hmem : (program.lowerRoutine config extended routine).1 ∈ u.functions.map Except.ok := by
      rw [hfns]
      exact mem_map.2 ⟨routine, hroutine, rfl⟩
    obtain ⟨fn, hfn, hrun⟩ := mem_map.1 hmem
    refine ⟨fn, hfn, _, Prod.ext hrun.symm rfl, ?_⟩
    exact hcarries _ (mem_append_left _ (mem_map_of_mem hroutine))
  · refine ⟨_, Prod.ext htop.symm rfl, ?_⟩
    exact hcarries _ (mem_append_right _ (mem_singleton_self _))
  · have hnames : u.helpers.map (·.name) =
        (Helper.closure (LoweredBody.helpers (program.lowered config extended))).map
          Helper.name := by
      rw [← hu, assemble, map_map]
      exact map_congr_left fun helper _ => name_function _ helper
    rw [hnames]
    exact nodup_closure_names _
  · intro fn hfn
    rw [← hu] at hfn ⊢
    obtain ⟨helper, hhelper, rfl⟩ := mem_map.1 hfn
    refine ⟨helper, rfl, ?_, ?_⟩
    · intro dependency hdependency
      exact mem_map.2 ⟨dependency, dependency_mem_closure hhelper hdependency, rfl⟩
    · intro intrinsic hintrinsic
      refine Intrinsic.mem_inOrder.2 (mem_append_right _ ?_)
      exact mem_flatMap.2 ⟨helper, hhelper, hintrinsic⟩

theorem Compiled.helper_name (h : Compiled config env program u) {fn : Func}
    (hfn : fn ∈ u.helpers) : ∃ helper : Helper, fn.name = helper.name := by
  obtain ⟨helper, rfl, -⟩ := h.helpers fn hfn
  exact ⟨helper, name_function _ helper⟩

theorem Compiled.main_name (h : Compiled config env program u) : u.main.name = mainName := by
  obtain ⟨later, hrun, -⟩ := h.main
  exact Lowering.Body.name_eq hrun

/-- The functions of a unit and its top level come from its bodies. -/
theorem Compiled.body_of_function (h : Compiled config env program u) {fn : Func}
    (hfn : fn ∈ u.functions ++ [u.main]) : ∃ body ∈ program.bodies, ∃ later,
      body.run (program.context config env) {} = (.ok fn, later) ∧ u.Carries later := by
  rcases mem_append.1 hfn with hfunction | hmain
  · obtain ⟨routine, hroutine, hlowered⟩ := h.routine_of_function fn hfunction
    exact ⟨_, mem_append_left _ (mem_map_of_mem hroutine), hlowered⟩
  · rw [mem_singleton.1 hmain]
    exact ⟨_, mem_append_right _ (mem_singleton_self _), h.main⟩

end TypedWasm
