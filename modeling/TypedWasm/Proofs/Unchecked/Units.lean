import Mathlib.Data.List.Forall2
import TypedWasm.Proofs.Unchecked.Bodies

/-!
# Units with and without index checks

A unit compiles with checks exactly when it compiles without, and a run with checks that settles is
repeated by the run without. The name of the element address has to be free, since a method under
that name would take its place in the unit without checks.
-/

namespace TypedWasm

open Helper List Machine

open Lowering (SameBody SameRoutine)

variable {kept : Prop} {functions functions' : List Func} {helper : Helper} {m : Machine}

namespace LoweredBody

variable {bodies bodies' : List LoweredBody}

/-- Bodies that agree one by one. -/
abbrev AgreeAll (bodies bodies' : List LoweredBody) : Prop :=
  List.Forall₂ SameBody bodies bodies'

section

variable (h : AgreeAll bodies bodies')
include h

theorem same_failures : bodies.filterMap overflow? = bodies'.filterMap overflow? ∧
      bodies.filterMap fault? = bodies'.filterMap fault? := by
  induction h with
  | nil => exact ⟨rfl, rfl⟩
  | cons hbody _ ih =>
    cases hbody with
    | ok => exact ih
    | error failure =>
      cases failure with
      | fault fault => exact ⟨ih.1, congrArg (fault :: ·) ih.2⟩
      | overflow overflow => exact ⟨congrArg (overflow :: ·) ih.1, ih.2⟩

theorem collect_error_iff (failure : CompileFailure) :
    collect bodies = .error failure ↔ collect bodies' = .error failure := by
  obtain ⟨hoverflow, hfault⟩ := same_failures h
  rw [collect, collect, hoverflow, hfault]
  cases bodies'.filterMap overflow? with
  | cons => exact Iff.rfl
  | nil =>
    cases bodies'.filterMap fault? with
    | cons => exact Iff.rfl
    | nil => simp

theorem same_routines (hkept : Helper.listElementAddress ∈ helpers bodies' → kept)
    (hfunctions : bodies.map (·.1) = functions.map Except.ok)
    (hfunctions' : bodies'.map (·.1) = functions'.map Except.ok) :
    List.Forall₂ (SameRoutine kept) functions functions' := by
  induction h generalizing functions functions' with
  | nil =>
    obtain rfl : functions = [] := by simpa using hfunctions.symm
    obtain rfl : functions' = [] := by simpa using hfunctions'.symm
    exact .nil
  | cons hbody _ ih =>
    cases functions with
    | nil => cases hfunctions
    | cons fn functions =>
      cases functions' with
      | nil => cases hfunctions'
      | cons fn' functions' =>
        rw [map_cons, map_cons, List.cons.injEq] at hfunctions hfunctions'
        have hrest := ih (fun hmem => hkept (mem_append_right _ hmem)) hfunctions.2 hfunctions'.2
        cases hbody with
        | error => cases hfunctions.1
        | ok _ hroutine =>
          cases hfunctions.1
          cases hfunctions'.1
          exact .cons (hroutine kept fun hmem => hkept (mem_append_left _ hmem)) hrest

theorem mem_helpers_iff (hfunctions : bodies.map (·.1) = functions.map Except.ok)
    (hhelper : helper ≠ .listElementAddress) : helper ∈ helpers bodies' ↔
      helper ∈ helpers bodies := by
  induction h generalizing functions with
  | nil => exact Iff.rfl
  | cons hbody _ ih =>
    cases functions with
    | nil => cases hfunctions
    | cons fn functions =>
      rw [map_cons, map_cons, List.cons.injEq] at hfunctions
      cases hbody with
      | error => cases hfunctions.1
      | ok hhelpers =>
        simp only [helpers, flatMap_cons, mem_append]
        exact or_congr (hhelpers helper hhelper) (ih hfunctions.2)

end

end LoweredBody

theorem Helper.helperDependencies_listElementAddress (caller : Helper) :
    Helper.listElementAddress ∉ caller.helperDependencies := by
  cases caller <;> decide

namespace Unchecked

section Tables

variable {slack : UInt32} {used used' : List Helper} {name : String}

def helperTable (slack : UInt32) (used : List Helper) : List Func :=
  ((Helper.closure used).map (Helper.function slack)).reverse

theorem find?_helperTable (h : helper ∈ Helper.closure used) :
    (helperTable slack used).find? (·.name == helper.name) = some (helper.function slack) := by
  have hnames : ((helperTable slack used).map (·.name)).Nodup := by
    have hname : (fun fn : Func => fn.name) ∘ Helper.function slack = Helper.name :=
      funext (name_function slack)
    rw [helperTable, map_reverse, map_map, hname]
    exact pairwise_reverse.2 ((nodup_closure_names used).imp Ne.symm)
  have hmem : helper.function slack ∈ helperTable slack used := mem_reverse.2 (mem_map_of_mem h)
  rw [← name_function slack helper]
  exact find?_key_of_mem hnames hmem

theorem helper_of_find? {fn : Func}
    (h : (helperTable slack used).find? (·.name == name) = some fn) :
    ∃ helper ∈ Helper.closure used, helper.name = name ∧ helper.function slack = fn := by
  obtain ⟨helper, hhelper, rfl⟩ := mem_map.1 (mem_reverse.1 (mem_of_find?_eq_some h))
  have hname := find?_some h
  rw [name_function, beq_iff_eq] at hname
  exact ⟨helper, hhelper, hname, rfl⟩

theorem mem_closure_iff
    (hused : ∀ helper : Helper, helper ≠ .listElementAddress → (helper ∈ used' ↔ helper ∈ used))
    (hhelper : helper ≠ .listElementAddress) :
    helper ∈ Helper.closure used' ↔ helper ∈ Helper.closure used := by
  have hcaller : ∀ caller : Helper, helper ∈ caller.helperDependencies →
      caller ≠ .listElementAddress := by
    rintro _ hdependency rfl
    cases hdependency
  rw [mem_closure, mem_closure, hused helper hhelper]
  refine or_congr Iff.rfl ⟨?_, ?_⟩
  · rintro ⟨caller, hmem, hdependency⟩
    exact ⟨caller, (hused caller (hcaller caller hdependency)).1 hmem, hdependency⟩
  · rintro ⟨caller, hmem, hdependency⟩
    exact ⟨caller, (hused caller (hcaller caller hdependency)).2 hmem, hdependency⟩

theorem counterpart_helper (helper : Helper) :
    Counterpart .unchecked (known kept) (helper.function slack) (helper.function slack) := by
  refine ⟨rfl, rfl, .refl_of _ (fun callee hmem => ?_) 0⟩
  rw [allCallees_function] at hmem
  rcases mem_append.1 hmem with hcalled | hcalled
  · obtain ⟨called, hdependency, rfl⟩ := mem_map.1 hcalled
    intro hname
    obtain rfl := eq_of_name_eq hname
    exact absurd hdependency (helperDependencies_listElementAddress helper)
  · obtain ⟨called, -, rfl⟩ := mem_map.1 hcalled
    trivial

theorem find?_routine (h : List.Forall₂ (SameRoutine kept) functions functions') {fn : Func}
    (hfind : functions.find? (·.name == name) = some fn) :
    ∃ fn', functions'.find? (·.name == name) = some fn' ∧
      Counterpart .unchecked (known kept) fn fn' := by
  induction h with
  | nil => cases hfind
  | @cons first first' rest rest' hfirst _ ih =>
    obtain ⟨hname, hcounterpart⟩ := hfirst
    by_cases hhere : first.name = name
    · rw [find?_cons_of_pos (by simpa using hhere)] at hfind
      rw [find?_cons_of_pos (by simpa [hname] using hhere)]
      cases hfind
      exact ⟨first', rfl, hcounterpart⟩
    · rw [find?_cons_of_neg (by simpa using hhere)] at hfind
      rw [find?_cons_of_neg (by simpa [hname] using hhere)]
      exact ih hfind

theorem not_find?_address (hfree : Helper.listElementAddress.name ∉ functions.map (·.name))
    (fn : Func) : functions.reverse.find? (·.name == Helper.listElementAddress.name) ≠ some fn := by
  intro hfind
  have hname := find?_some hfind
  have hmem := mem_reverse.1 (mem_of_find?_eq_some hfind)
  rw [beq_iff_eq] at hname
  exact hfree (hname ▸ mem_map_of_mem hmem)

theorem linked_of_bodies (hfunctions : List.Forall₂ (SameRoutine kept) functions functions')
    (hfree : Helper.listElementAddress.name ∉ functions.map (·.name))
    (hused : ∀ helper : Helper, helper ≠ .listElementAddress → (helper ∈ used' ↔ helper ∈ used))
    (hkept : kept → Helper.listElementAddress ∈ used') :
    LinkedBy .unchecked (known kept) (helperTable slack used ++ functions.reverse)
      (helperTable slack used' ++ functions'.reverse) where
  found := by
    intro name fn hknown hfind
    have hclosure : ∀ helper : Helper, helper.name = name →
        (helper ∈ Helper.closure used → helper ∈ Helper.closure used') := by
      rintro helper rfl hmem
      by_cases hother : helper = .listElementAddress
      · subst hother
        exact mem_closure.2 (.inl (hkept (hknown rfl)))
      · exact (mem_closure_iff hused hother).2 hmem
    rw [find?_append] at hfind ⊢
    cases hhelper : (helperTable slack used).find? (·.name == name) with
    | some fn₁ =>
      obtain ⟨helper, hmem, rfl, rfl⟩ := helper_of_find? hhelper
      rw [hhelper, Option.some_or, Option.some.injEq] at hfind
      rw [find?_helperTable (hclosure helper rfl hmem), Option.some_or]
      exact ⟨_, rfl, hfind ▸ counterpart_helper helper⟩
    | none =>
      rw [hhelper, Option.none_or] at hfind
      cases hhelper' : (helperTable slack used').find? (·.name == name) with
      | some fn₁ =>
        obtain ⟨helper, hmem, rfl, -⟩ := helper_of_find? hhelper'
        have hother : helper ≠ .listElementAddress := by
          rintro rfl
          exact not_find?_address hfree fn hfind
        rw [find?_helperTable ((mem_closure_iff hused hother).1 hmem)] at hhelper
        cases hhelper
      | none =>
        rw [Option.none_or]
        exact find?_routine (forall₂_reverse_iff.2 hfunctions) hfind
  missing h := absurd trivial h
  address := by
    intro _ fn hfind
    rw [find?_append] at hfind
    cases hhelper : (helperTable slack used).find? (·.name == Helper.listElementAddress.name) with
    | some fn₁ =>
      obtain ⟨helper, -, hname, rfl⟩ := helper_of_find? hhelper
      obtain rfl := eq_of_name_eq hname
      rw [hhelper, Option.some_or, Option.some.injEq] at hfind
      exact hfind.symm
    | none =>
      rw [hhelper, Option.none_or] at hfind
      exact absurd hfind (not_find?_address hfree fn)

end Tables

end Unchecked

section Units

variable {config : Config} {env : Environment} {program : Program} {u' u : CompiledUnit}

theorem Program.lowered_agree (program : Program) (config : Config)
    (hfree : Helper.listElementAddress.name ∉ program.routines.map (·.2)) (extended : Environment) :
    LoweredBody.AgreeAll (program.lowered (config.checking true) extended)
      (program.lowered (config.checking false) extended) := by
  have hcallables :
      Helper.listElementAddress.name ∉ (program.context config extended).callables := by
    rw [program.routine_names] at hfree
    exact hfree
  rw [LoweredBody.AgreeAll, Program.lowered, Program.lowered, program.lowerBodies_bodies,
    program.lowerBodies_bodies, forall₂_map_left_iff, forall₂_map_right_iff, forall₂_same]
  exact fun body _ => body.sameBody hcallables

theorem compile_error_iff (hfree : Helper.listElementAddress.name ∉ program.routines.map (·.2))
    (failure : CompileFailure) : compile (config.checking true) env program = .error failure ↔
      compile (config.checking false) env program = .error failure := by
  rw [compile_eq, compile_eq]
  cases env.extend program with
  | error => exact Iff.rfl
  | ok extended =>
    have hfit : ∀ checks, checkGlobalsFit extended (config.checking checks) =
        checkGlobalsFit extended config := fun _ => rfl
    dsimp only
    rw [hfit, hfit]
    cases checkGlobalsFit extended config with
    | error => exact Iff.rfl
    | ok =>
      cases program.callables with
      | error => exact Iff.rfl
      | ok =>
        have hmap : ∀ {α : Type} (result : Except CompileFailure α) (f : α → CompiledUnit),
            result.map f = .error failure ↔ result = .error failure := by
          intro α result f
          cases result <;> simp [Except.map]
        dsimp only
        rw [hmap, hmap]
        exact LoweredBody.collect_error_iff (program.lowered_agree config hfree extended) failure

theorem load_functions {extended : Environment} {bodies : List LoweredBody}
    (hfunctions : functions ≠ []) (hm : m.functions = []) :
    (m.load (assemble config extended bodies functions)).functions =
      Unchecked.helperTable config.listGrowthSlack (LoweredBody.helpers bodies) ++
        functions.reverse := by
  rw [Machine.load, CompiledUnit.allFunctions, assemble_functions _ _ _ hfunctions, reverse_append,
    hm, append_nil]
  rfl

/-- The functions of a unit compiled with checks are linked to those of the unit without. -/
theorem linked_of_compile (hfree : Helper.listElementAddress.name ∉ program.routines.map (·.2))
    (hu : compile (config.checking true) env program = .ok u)
    (hu' : compile (config.checking false) env program = .ok u') (hm : m.functions = []) :
    ∃ kept, LinkedBy .unchecked (Unchecked.known kept) (m.load u).functions
      (m.load u').functions := by
  obtain ⟨_, -, -, hcompiled⟩ := Compiled.of_compile hu
  obtain ⟨extended, functions, hextend, -, -, hfunctions, rfl⟩ := compile_eq_ok_iff.1 hu
  obtain ⟨extended', functions', hextend', -, -, hfunctions', rfl⟩ := compile_eq_ok_iff.1 hu'
  obtain rfl : extended = extended' := Except.ok.inj (hextend.symm.trans hextend')
  have hagree := program.lowered_agree config hfree extended
  have hnonempty : ∀ {config : Config} {functions : List Func},
      (program.lowered config extended).map (·.1) = functions.map Except.ok → functions ≠ [] := by
    rintro config _ hmap rfl
    rw [program.lowered_eq] at hmap
    simp at hmap
  have hnames : Helper.listElementAddress.name ∉ functions.map (·.name) := by
    have hall := congrArg (List.map (·.name)) (assemble_functions (config.checking true)
      extended.leave (program.lowered (config.checking true) extended) (hnonempty hfunctions))
    rw [← hall, map_append, hcompiled.names, map_singleton, hcompiled.main_name, mem_append]
    rintro (hroutine | hmain)
    · exact hfree hroutine
    · exact absurd hmain (by decide)
  refine ⟨Helper.listElementAddress ∈
    LoweredBody.helpers (program.lowered (config.checking false) extended), ?_⟩
  rw [load_functions (hnonempty hfunctions) hm, load_functions (hnonempty hfunctions') hm]
  exact Unchecked.linked_of_bodies (LoweredBody.same_routines hagree id hfunctions hfunctions')
    hnames (fun helper => LoweredBody.mem_helpers_iff hagree hfunctions) id

/-- The run of a linked unit without checks repeats a run with checks that settles. -/
theorem runMain_mirrors (hlink : LinkedBy .unchecked (Unchecked.known kept) (m.load u).functions
      (m.load u').functions) :
    RepeatsCall .unchecked (m.load u').functions (m.runMain u) (m.runMain u') := by
  rw [Machine.runMain, call_eq]
  cases hfind : (m.load u).function? mainName with
  | none =>
    intro hsettled
    cases hsettled
  | some fn =>
    obtain ⟨fn', hfind', hfn⟩ := hlink.found mainName fn (fun h => absurd h (by decide)) hfind
    have hmain : (m.load u').function? mainName = some fn' := hfind'
    rw [Machine.runMain, call_eq, hmain]
    exact Renamed.call_repeats (Renamed.runs_repeat hlink (m.fuel + 1)).1 hfn [] rfl
      (Nat.lt_succ_self m.fuel) (Nat.le_refl m.fuel)

end Units

/-- **Index checks are unobservable on runs that settle.** A unit in which no routine has the name
of the element address, as none has with names of a source (`Program.helper_free`), fails to compile
with checks exactly as it does without. On a fresh machine, a run of the top level with checks that
returns a value, or traps for a reason of its own, is repeated without checks: with the same result,
the same output and the same memory. -/
theorem index_checks_unobservable (config : Config) (env : Environment) (program : Program)
    (hfree : Helper.listElementAddress.name ∉ program.routines.map (·.2)) :
    (∀ failure, compile (config.checking true) env program = .error failure ↔
      compile (config.checking false) env program = .error failure) ∧
    ∀ u u' m, compile (config.checking true) env program = .ok u →
      compile (config.checking false) env program = .ok u' →
      Machine.start? (config.checking true) = .ok m → Machine.start? (config.checking false) =
        .ok m ∧ (Trap.settles (m.runMain u).1 = true → (m.runMain u').1 = (m.runMain u).1 ∧
          (m.runMain u').2.output = (m.runMain u).2.output ∧
          (m.runMain u').2.memory = (m.runMain u).2.memory) := by
  refine ⟨compile_error_iff hfree, fun u u' m hu hu' hstart => ⟨hstart, fun hsettled => ?_⟩⟩
  obtain ⟨kept, hlink⟩ := linked_of_compile hfree hu hu' (functions_of_start? hstart)
  have hreturns : Mode.unchecked.returns (m.runMain u).1 = true := by
    rwa [Mode.unchecked_returns]
  obtain ⟨fuel, -, hrun⟩ := runMain_mirrors hlink hreturns
  rw [hrun]
  exact ⟨rfl, rfl, rfl⟩

/-- A unit that adds up the elements of a list in a loop, stores the sum in the list and prints it.
-/
def Unchecked.summing : Program where
  inits := [{ name := "xs", ty := .list .number, value := .none },
    { name := "i", ty := .number, value := .num 0 },
    { name := "sum", ty := .number, value := .num 0 }]
  stmts := [
    .assign (.single (.id "xs") (.list .number))
      (.listOf .number [.ofLiteral (.num 20), .ofLiteral (.num 22)]),
    .loop (.binary .bool .lt (.id .number "i") (.builtin1 .number .len (.id (.list .number) "xs")))
      [.assign (.single (.id "sum") .number) (.binary .number .plus (.id .number "sum")
        (.index .number (.id (.list .number) "xs") (.id .number "i"))),
       .assign (.single (.id "i") .number)
        (.binary .number .plus (.id .number "i") (.ofLiteral (.num 1)))],
    .assign (.single (.index (.id (.list .number) "xs") (.ofLiteral (.num 0))) .number)
      (.id .number "sum"),
    .expr (.printOf (.index .number (.id (.list .number) "xs") (.ofLiteral (.num 0))))]

theorem Unchecked.summing_unobservable :
    ∃ u u' m, compile (Config.checking {} true) {} summing = .ok u ∧
      compile (Config.checking {} false) {} summing = .ok u' ∧
      Machine.start? (Config.checking {} true) = .ok m ∧ (m.runMain u).1 = .ok 42 ∧
      (m.runMain u').1 = .ok 42 ∧ (m.runMain u').2.output = (m.runMain u).2.output ∧
      (m.runMain u').2.memory = (m.runMain u).2.memory := by
  have hfree : Helper.listElementAddress.name ∉ summing.routines.map (·.2) :=
    Program.helper_free (by decide) (by decide) _
  have hchecked : outcome? (Config.checking {} true) summing = some (.ok 42, ["42"]) := by
    decide +kernel
  have hcompiles : (outcome? (Config.checking {} false) summing).isSome = true := by
    decide +kernel
  obtain ⟨u, m, hu, hm, hrun⟩ := outcome?_eq_some_iff.1 hchecked
  obtain ⟨outcome, houtcome⟩ := Option.isSome_iff_exists.1 hcompiles
  obtain ⟨u', -, hu', -, -⟩ := outcome?_eq_some_iff.1 houtcome
  obtain ⟨-, hruns⟩ := index_checks_unobservable {} {} summing hfree
  have hvalue : (m.runMain u).1 = .ok 42 := congrArg Prod.fst hrun
  obtain ⟨-, hsame⟩ := hruns u u' m hu hu' hm
  obtain ⟨hresult, houtput, hmemory⟩ := hsame (by rw [hvalue]; rfl)
  exact ⟨u, u', m, hu, hu', hm, hvalue, hresult.trans hvalue, houtput, hmemory⟩

/-- A unit with plain names whose class of no name has a method `list_element_address`. -/
def Unchecked.shadowing : Program where
  classes := [{
    name := ""
    fields := [{ name := "a", ty := .number, value := .num 0 },
      { name := "b", ty := .number, value := .num 5 }]
    methods := [{
      name := "list_element_address"
      parameters := [{ name := "self", ty := .cls "" }, { name := "i", ty := .number }]
      body := [.ret (.ofLiteral (.num 7))] }] }]
  stmts := [
    .expr (.index .number (.listOf .number [.ofLiteral (.num 1)]) (.ofLiteral (.num 0))),
    .expr (.methodCall .number (.construct (.cls "") "" []) "list_element_address"
      [.ofLiteral (.num 0)])]

/-- Without checks the method runs, with checks the element address in its place: plain names do not
rule that out. -/
theorem Unchecked.shadowing_observable : shadowing.PlainNames ∧
      ∃ u u' m, compile (Config.checking {} true) {} shadowing = .ok u ∧
        compile (Config.checking {} false) {} shadowing = .ok u' ∧
        Machine.start? (Config.checking {} true) = .ok m ∧
        (m.runMain u).1 = .ok 65604 ∧ (m.runMain u').1 = .ok 7 := by
  have hnames : shadowing.PlainNames := by decide +kernel
  have hchecked : outcome? (Config.checking {} true) shadowing = some (.ok 65604, []) := by
    decide +kernel
  have hunchecked : outcome? (Config.checking {} false) shadowing = some (.ok 7, []) := by
    decide +kernel
  obtain ⟨u, m, hu, hm, hrun⟩ := outcome?_eq_some_iff.1 hchecked
  obtain ⟨u', m', hu', hm', hrun'⟩ := outcome?_eq_some_iff.1 hunchecked
  obtain rfl : m = m' := Except.ok.inj (hm.symm.trans hm')
  exact ⟨hnames, u, u', m, hu, hu', hm, congrArg Prod.fst hrun, congrArg Prod.fst hrun'⟩

end TypedWasm
