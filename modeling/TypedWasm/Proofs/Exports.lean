import TypedWasm.Proofs.Validity

/-!
# The names of a module

A module names its functions by the names of the source, by mangled names, by `main` and by the
names of helpers, all distinct. Only `main` is kept from the functions of a source, so a function
called `memory` meets the exported memory.
-/

namespace TypedWasm

open List

variable {config : Config} {env : Environment} {program : Program} {u : CompiledUnit}

theorem exported_of_fun (h : Compiled config env program u) {fn : FunDef}
    (hfn : fn ∈ program.funs) : fn.name ∈ (u.allFunctions.filter (·.exported)).map (·.name) := by
  have hroutine : (fn, fn.name) ∈ program.routines := mem_append_left _ (mem_map.2 ⟨fn, hfn, rfl⟩)
  obtain ⟨func, hfunc, _, hrun, -⟩ := h.function_of_routine _ hroutine
  obtain ⟨_, _, _, _, _, _, rfl, _⟩ := Lowering.Body.run_eq_ok_iff.1 hrun
  have hmem := mem_append_left u.helpers (mem_append_left [u.main] hfunc)
  exact mem_map.2 ⟨_, mem_filter.2 ⟨hmem, rfl⟩, rfl⟩

theorem export_names (himport : u.config.importMemory = false) :
    u.exports.map (·.name) = (u.allFunctions.filter (·.exported)).map (·.name) ++ ["memory"] := by
  rw [CompiledUnit.exports, map_append, exported_names, himport]
  rfl

/-- **The names of a module.** The functions of a compiled unit — functions, methods, main and
helpers — have distinct names. So have its exports exactly if the host owns the memory or no
function of the source is called `memory`. -/
theorem module_names_distinct (hnames : program.DistinctNames)
    (hcompile : compile config env program = .ok u) : (u.allFunctions.map (·.name)).Nodup ∧
      ((u.exports.map (·.name)).Nodup ↔
        config.importMemory = true ∨ ∀ fn ∈ program.funs, fn.name ≠ "memory") := by
  obtain ⟨extended, -, -, hcompiled⟩ := Compiled.of_compile hcompile
  have hconfig := hcompiled.config_eq
  have hdistinct := hcompiled.nodup_names hnames
  refine ⟨hdistinct, fun hexports => ?_, fun hfree => CompiledUnit.nodup_exports hdistinct ?_⟩
  · cases himport : config.importMemory with
    | true => exact .inl rfl
    | false =>
      rw [← hconfig] at himport
      rw [export_names himport] at hexports
      refine .inr fun fn hfn hname => ?_
      exact (nodup_append.1 hexports).2.2 _ (exported_of_fun hcompiled hfn) _
        (mem_singleton_self _) hname
  · intro himport
    rw [hconfig] at himport
    rcases hfree with htrue | hfuns
    · rw [himport] at htrue
      cases htrue
    · exact hcompiled.memory_free hfuns

namespace Exports

/-- A unit whose class has two methods, one of which joins lists. -/
def recording : Program where
  funs := [{ name := "memory", parameters := [], body := [.pass] }]
  classes := [{
    name := "Log"
    fields := [{ name := "entries", ty := .list .number, value := .none }]
    methods := [
      { name := "double"
        parameters := [{ name := "self", ty := .cls "Log" }]
        body := [.ret (.binary (.list .number) .plus
          (.lookup (.list .number) (.id (.cls "Log") "self") "entries")
          (.lookup (.list .number) (.id (.cls "Log") "self") "entries"))] },
      { name := "clear"
        parameters := [{ name := "self", ty := .cls "Log" }]
        body := [.assign (.single (.lookup (.id (.cls "Log") "self") "entries") (.list .number))
          (.listOf .number [])] }] }]

/-- A function may have the name of the memory where the host owns it. -/
theorem session_names_distinct : ∃ u, compile .session {} recording = .ok u ∧
    u.allFunctions.map (·.name) = ["memory", "Log$double", "Log$clear", "main", "$list_concat"] ∧
    (u.allFunctions.map (·.name)).Nodup ∧ (u.exports.map (·.name)).Nodup := by
  have hnames : recording.DistinctNames :=
    ⟨by decide, by decide, by decide, by decide, by decide, by decide⟩
  obtain ⟨hdistinct, hexports⟩ := @module_names_distinct .session {} recording _ hnames rfl
  exact ⟨_, rfl, rfl, hdistinct, hexports.2 (.inl rfl)⟩

/-- A unit of one function, which returns none. -/
def single (name : String) : Program where
  funs := [{ name, parameters := [], body := [.pass] }]

/-- Where the module defines its memory, the unit is accepted and the name is exported twice. -/
theorem memory_exported_twice : (single "memory").DistinctNames ∧
    ∃ u, compile {} {} (single "memory") = .ok u ∧
      u.exports.map (·.name) = ["memory", "main", "memory"] :=
  ⟨⟨by decide, by decide, by decide, by decide, by decide, by decide⟩, _, rfl, rfl⟩

end Exports

end TypedWasm
