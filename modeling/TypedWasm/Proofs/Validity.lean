import Mathlib.Data.List.Nodup
import TypedWasm.Proofs.Encodable
import TypedWasm.Proofs.Renamed.Bodies

/-!
# Compiled units are valid

A unit whose names are distinct and whose calls pass a word for every parameter compiles, if it
compiles, to a module that a host accepts.
-/

namespace TypedWasm

open CompiledUnit Helper List

variable {program : Program} {u : CompiledUnit} {config : Config} {env : Environment}

namespace Program

/-- A unit whose names are as a source gives them: not empty, without `$`, and distinct among those
of one kind. -/
structure DistinctNames (program : Program) : Prop where
  fun_names : ∀ fn ∈ program.funs, fn.name ≠ "" ∧ Dollarless fn.name
  class_names : ∀ cls ∈ program.classes, cls.name ≠ "" ∧ Dollarless cls.name
  method_names : ∀ cls ∈ program.classes, ∀ method ∈ cls.methods,
    method.name ≠ "" ∧ Dollarless method.name
  nodup_funs : (program.funs.map (·.name)).Nodup
  nodup_classes : (program.classes.map (·.name)).Nodup
  nodup_methods : ∀ cls ∈ program.classes, (cls.methods.map (·.name)).Nodup

/-- A unit as a checked source gives one: every call passes a word for every parameter. -/
structure WellFormed (program : Program) : Prop extends DistinctNames program where
  calls : program.CallsMatch

namespace DistinctNames

variable (h : program.DistinctNames) {name : String}

include h

theorem nodup_methodNames : program.methodNames.Nodup := by
  rw [methodNames, nodup_flatMap]
  constructor
  · intro cls hcls
    have hinjective : ∀ method ∈ cls.methods.map (·.name), ∀ other ∈ cls.methods.map (·.name),
        mangled cls.name method = mangled cls.name other → method = other := by
      intro method _ other hother heq
      obtain ⟨fn, hfn, rfl⟩ := mem_map.1 hother
      exact (mangled_injective (h.class_names cls hcls).2 (h.method_names cls hcls fn hfn).2 heq).2
    have hnodup := List.Nodup.map_on hinjective (h.nodup_methods cls hcls)
    rwa [map_map] at hnodup
  · have hclasses := pairwise_map.1 h.nodup_classes
    refine hclasses.imp_of_mem fun {cls other} hcls hother hne => ?_
    intro name hname hname'
    obtain ⟨method, hmethod, rfl⟩ := mem_map.1 hname
    obtain ⟨method', hmethod', heq⟩ := mem_map.1 hname'
    exact hne (mangled_injective (h.class_names cls hcls).2
      (h.method_names cls hcls method hmethod).2 heq).1.symm

theorem dollarless_of_mem (hname : name ∈ program.funs.map (·.name)) : Dollarless name := by
  obtain ⟨fn, hfn, rfl⟩ := mem_map.1 hname
  exact (h.fun_names fn hfn).2

theorem nodup_routines : (program.routines.map (·.2)).Nodup := by
  rw [routine_names]
  refine nodup_append.2 ⟨h.nodup_funs, h.nodup_methodNames, ?_⟩
  rintro name hfun _ hmethod rfl
  exact not_dollarless_of_mem hmethod (h.dollarless_of_mem hfun)

end DistinctNames

end Program

namespace Compiled

theorem nodup_names (h : Compiled config env program u) (hnames : program.DistinctNames) :
    (u.allFunctions.map (·.name)).Nodup := by
  rw [allFunctions, map_append, map_append, h.names, map_cons, map_nil, h.main_name]
  refine nodup_append.2 ⟨nodup_append.2 ⟨hnames.nodup_routines, by simp, ?_⟩, h.helper_names, ?_⟩
  · intro name hname other hother
    rw [mem_singleton.1 hother]
    exact h.ne_mainName (by rwa [h.names])
  · intro name hname other hother
    obtain ⟨fn, hfn, rfl⟩ := mem_map.1 hother
    obtain ⟨helper, hhelper⟩ := h.helper_name hfn
    rw [hhelper]
    rcases mem_append.1 hname with hroutine | hroot
    · rintro rfl
      exact Program.helper_free (fun fn hfn => (hnames.fun_names fn hfn).2) hnames.class_names
        helper hroutine
    · rw [mem_singleton.1 hroot]
      intro heq
      exact not_dollarless_helper helper (heq ▸ by decide)

end Compiled

theorem Program.WellFormed.arityOf_routine (hwf : program.WellFormed) {routine : FunDef × String}
    (hroutine : routine ∈ program.routines) :
    program.arityOf routine.2 = routine.1.parameters.length := by
  rw [Program.arityOf, find?_key_of_mem hwf.toDistinctNames.nodup_routines hroutine]
  rfl

theorem CompiledUnit.intrinsic_type {intrinsic : Intrinsic} (h : intrinsic ∈ u.intrinsics) :
    u.calleeType (.intrinsic intrinsic) = Helper.runtimeType (.intrinsic intrinsic) := by
  simp only [calleeType, if_pos h, Helper.runtimeType]

namespace Compiled

variable (h : Compiled config env program u) (hwf : program.WellFormed)

include h hwf

theorem find?_of_mem {fn : Func} (hfn : fn ∈ u.allFunctions) : u.find? fn.name = some fn :=
  find?_key_of_mem (h.nodup_names hwf.toDistinctNames) hfn

theorem helper_type {helper : Helper}
    (hhelper : helper.function u.config.listGrowthSlack ∈ u.helpers) :
    u.calleeType (.helper helper) = Helper.runtimeType (.helper helper) := by
  have hmem : helper.function u.config.listGrowthSlack ∈ u.allFunctions :=
    mem_append_right _ hhelper
  have hfind := h.find?_of_mem hwf hmem
  rw [name_function] at hfind
  simp only [calleeType, hfind, Option.map_some, Helper.runtimeType,
    functionType, params_function u.config.listGrowthSlack]

theorem links {later : Lowering.Progress} (hcarries : u.Carries later) :
    Lowering.Links program.arityOf (program.context config env).callables later u.calleeType where
  callables name hname := by
    have hcallable : name ∈ program.routines.map (·.2) := by
      rw [Program.routine_names]
      exact hname
    obtain ⟨routine, hroutine, rfl⟩ := mem_map.1 hcallable
    obtain ⟨fn, hfn, _, hrun, -⟩ := h.function_of_routine routine hroutine
    obtain ⟨_, _, _, _, _, _, rfl, _⟩ := Lowering.Body.run_eq_ok_iff.1 hrun
    have hmem := mem_append_left u.helpers (mem_append_left [u.main] hfn)
    have hfind : u.find? routine.2 = some _ := h.find?_of_mem hwf hmem
    simp only [calleeType, hfind, Option.map_some, functionType,
      Lowering.Body.func, Lowering.function, length_map, hwf.arityOf_routine hroutine]
  helpers helper hmem := h.helper_type hwf (hcarries.helpers helper hmem)
  intrinsics intrinsic hmem := intrinsic_type (hcarries.intrinsics hmem)

theorem bodies_disciplined :
    ∀ fn ∈ u.allFunctions, Discipline.body (u.scope fn) fn.body = true := by
  have hpasses := hwf.calls.passes config env
  obtain ⟨hroutines, hstmts⟩ := Lowering.passes_append.1 hpasses
  intro fn hfn
  rcases mem_append.1 hfn with hown | hhelper
  · obtain ⟨body, hbody, later, hrun, hcarries⟩ := h.body_of_function hown
    have hcalls : Lowering.Passes program.arityOf (program.context config env)
        (Stmt.allCallSites body.stmts) := by
      rcases mem_append.1 hbody with hroutine | htop
      · obtain ⟨routine, hmem, rfl⟩ := mem_map.1 hroutine
        exact fun site hsite => hroutines site (mem_flatMap.2 ⟨routine, hmem, hsite⟩)
      · rw [mem_singleton.1 htop]
        exact hstmts
    exact Lowering.Body.sound hrun hcalls _ (h.links hwf hcarries)
  · obtain ⟨helper, rfl, hcarries⟩ := h.helpers fn hhelper
    have hsame : ∀ callee ∈ InstrOf.allCallees (helper.function config.listGrowthSlack).body,
        u.calleeType callee = Helper.runtimeType callee := by
      intro callee hcallee
      rw [allCallees_function] at hcallee
      rcases mem_append.1 hcallee with hdependency | hdependency
      · obtain ⟨dependency, hmem, rfl⟩ := mem_map.1 hdependency
        exact h.helper_type hwf (hcarries.helpers dependency hmem)
      · obtain ⟨dependency, hmem, rfl⟩ := mem_map.1 hdependency
        exact intrinsic_type (hcarries.intrinsics hmem)
    exact (Discipline.body_congr _ hsame).trans (body_disciplined config.listGrowthSlack helper)

end Compiled

theorem exported_names (functions : List Func) (start : Nat) :
    ((functions.zipIdx start).filterMap fun (fn, index) =>
      if fn.exported then some ({ name := fn.name, kind := .function index } : Export)
      else none).map (·.name) = (functions.filter (·.exported)).map (·.name) := by
  induction functions generalizing start with
  | nil => rfl
  | cons fn rest ih =>
    by_cases hexported : fn.exported
    · simpa [hexported] using ih (start + 1)
    · simpa [hexported] using ih (start + 1)

/-- Export names are distinct when function names are and none is the name of the memory. -/
theorem CompiledUnit.nodup_exports (hnames : (u.allFunctions.map (·.name)).Nodup)
    (hmemory : u.config.importMemory = false → "memory" ∉ u.allFunctions.map (·.name)) :
    (u.exports.map (·.name)).Nodup := by
  have hfunctions : ((u.allFunctions.filter (·.exported)).map (·.name)).Sublist
      (u.allFunctions.map (·.name)) := List.Sublist.map _ filter_sublist
  rw [exports, map_append, exported_names]
  cases himport : u.config.importMemory with
  | true => simpa using hnames.sublist hfunctions
  | false =>
    refine nodup_append.2 ⟨hnames.sublist hfunctions, by simp, ?_⟩
    rintro name hname other hother rfl
    simp only [Bool.false_eq_true, if_false, map_cons, map_nil, mem_singleton] at hother
    exact hmemory himport (hother ▸ hfunctions.subset hname)

theorem Compiled.memory_free (h : Compiled config env program u)
    (hfuns : ∀ fn ∈ program.funs, fn.name ≠ "memory") : "memory" ∉ u.allFunctions.map (·.name) := by
  have hplain : Dollarless "memory" := by decide
  rw [allFunctions, map_append, map_append, h.names, Program.routine_names,
    map_cons, map_nil, h.main_name]
  intro hmem
  simp only [mem_append, mem_singleton] at hmem
  rcases hmem with ((hfun | hmethod) | hmain) | hhelper
  · obtain ⟨fn, hfn, heq⟩ := mem_map.1 hfun
    exact hfuns fn hfn heq
  · exact Program.not_dollarless_of_mem hmethod hplain
  · exact absurd hmain (by decide)
  · obtain ⟨fn, hfn, heq⟩ := mem_map.1 hhelper
    obtain ⟨helper, hhelper⟩ := h.helper_name hfn
    exact not_dollarless_helper helper (hhelper ▸ heq ▸ hplain)

/-- **Compiled units are valid.** In a well-formed unit that compiles, in any environment, every
callee and every local has an index and every body keeps the stack discipline, if the memory limits
fit and no function takes the name of the exported memory. Its module is valid, and is what is
written, whether or not the output is validated. -/
theorem compile_encodes {config : Config} {env : Environment} {program : Program}
    {u : CompiledUnit} (hwf : program.WellFormed)
    (hmemory : config.importMemory = false → ∀ fn ∈ program.funs, fn.name ≠ "memory")
    (hminimum : config.minMemoryPages.toNat ≤ 65536)
    (hmaximum : ∀ pages, config.maxMemoryPages = some pages →
      config.minMemoryPages ≤ pages ∧ pages.toNat ≤ 65536)
    (hcompile : compile config env program = .ok u) : u.Encodable ∧
      ∃ m, u.toModule = .ok m ∧ m.validate = .ok () ∧ u.encode = .ok m.bytes := by
  obtain ⟨extended, -, -, hcompiled⟩ := Compiled.of_compile hcompile
  have hconfig := hcompiled.config_eq
  have hnames := hcompiled.nodup_names hwf.toDistinctNames
  have hencodable : u.Encodable := by
    refine ⟨hnames, ⟨?_, ?_⟩, nodup_exports hnames ?_, hcompiled.bodies_disciplined hwf⟩
    · simpa [limits, Validate.maxPages, hconfig] using hminimum
    · simpa [limits, Validate.maxPages, hconfig] using hmaximum
    · intro himport
      rw [hconfig] at himport
      exact hcompiled.memory_free (hmemory himport)
  exact ⟨hencodable, hencodable.encodes⟩

/-- A unit that calls a function with what a method of a new instance returns. -/
def Validity.sample : Program where
  funs := [{
    name := "twice"
    parameters := [{ name := "x", ty := .number }]
    body := [.ret (.binary .number .plus (.id .number "x") (.id .number "x"))] }]
  classes := [{
    name := "Cell"
    fields := [{ name := "value", ty := .number, value := .num 21 }]
    methods := [{
      name := "get"
      parameters := [{ name := "self", ty := .cls "Cell" }]
      body := [.ret (.lookup .number (.id (.cls "Cell") "self") "value")] }] }]
  stmts := [.expr (.call .number "twice"
    [.methodCall .number (.construct (.cls "Cell") "Cell" []) "get" []])]

theorem Validity.sample_encodes : ∃ u m, compile {} {} sample = .ok u ∧ u.Encodable ∧
    u.toModule = .ok m ∧ m.validate = .ok () ∧ u.encode = .ok m.bytes := by
  have hcalls : sample.CallsMatch := by
    unfold Program.CallsMatch
    decide
  have hwf : sample.WellFormed :=
    ⟨⟨by decide, by decide, by decide, by decide, by decide, by decide⟩, hcalls⟩
  have hcompiles : (compile {} {} sample).isOk = true := by decide +kernel
  cases hcompile : compile {} {} sample with
  | error failure =>
    rw [hcompile] at hcompiles
    cases hcompiles
  | ok u =>
    obtain ⟨hencodable, m, hm⟩ := compile_encodes hwf (fun _ => by decide) (by decide)
      (by intro pages hpages; cases hpages; decide) hcompile
    exact ⟨u, m, rfl, hencodable, hm⟩

end TypedWasm
