import TypedWasm.Proofs.Scalar.Bodies
import TypedWasm.Session

/-!
# Compiled scalar programs

A scalar program that compiles runs as the interpreter says, unless it runs out of fuel. The machine
ends with the same value or trap, the same lines printed and the same words in the globals.
-/

namespace TypedWasm

open Environment Failing List Machine

namespace Scalar

open Lowering

section Programs

variable {config : Config} {env : Environment} {program : Program} {u : CompiledUnit}

theorem Loaded.of_compiled (h : Compiled config env program u)
    (hnative : config.numberRepr = .native)
    (hplan : env.Planned) (hfuns : (program.funs.map (·.name)).Nodup) (hplain : program.PlainNames)
    (m : Machine) : Loaded program (program.context config env) (m.load u).functions where
  native := by
    show config.bigNumbers = false
    rw [Config.bigNumbers, hnative]
    rfl
  planned := hplan
  distinct := hfuns
  callable name hname hdollar := by
    rcases mem_append.1 hname with hfun | hmethod
    · exact hfun
    · exact absurd hdollar (Program.not_dollarless_of_mem hmethod)
  lowered fn hfn := by
    have hroutine : (fn, fn.name) ∈ program.routines := mem_append_left _ (mem_map_of_mem hfn)
    obtain ⟨func, hfunc, later, hrun, -⟩ := h.function_of_routine _ hroutine
    have hname : func.name = fn.name := Lowering.Body.name_eq hrun
    have hmem : func ∈ u.allFunctions := mem_append_left _ (mem_append_left _ hfunc)
    have hdollar : Dollarless func.name := by
      rw [hname]
      exact hplain.fun_name hfn
    refine ⟨func, later, hrun, ?_⟩
    rw [← hname]
    exact h.function?_load hfuns hmem hdollar m

theorem covered_of_isScalar (hscalar : program.isScalar = true) (hplain : program.PlainNames)
    (hparams : ∀ fn ∈ program.funs, (fn.parameters.map (·.name)).Nodup)
    (hcalls : program.CallsMatch) {fn : FunDef} (hfn : fn ∈ program.funs) :
    Covered program (program.context config env) fn where
  scalar := by
    simp only [Program.isScalar, Bool.and_eq_true, all_eq_true] at hscalar
    exact hscalar.1.2 fn hfn
  plain := hplain.of_fun hfn
  params := hparams fn hfn
  passes := by
    intro site hsite
    refine hcalls.passes config env site (mem_append_left _ ?_)
    exact mem_flatMap.2 ⟨(fn, fn.name), mem_append_left _ (mem_map_of_mem hfn), hsite⟩

end Programs

section Globals

variable {env : Environment} {functions : List Func} {world : World} {m : Machine} {config : Config}

theorem Settled.session_global (h : Settled env functions world m) (hplan : env.Planned)
    (hfit : ∀ entry ∈ env.globals, 4 * entry.2.toNat + 4 ≤ config.heapStart.toNat) {name : String}
    {word : Word} (hentry : (name, word) ∈ world.globals) :
    Session.global { config, env, machine := m } name = .ok word := by
  have hnodup : (world.globals.map (·.1)).Nodup := by
    rw [h.declared]
    exact hplan.names
  have hlookup := lookup_of_mem_of_nodup hnodup hentry
  obtain ⟨slot, hslot, -⟩ := h.words name word hlookup
  have hbelow : 4 * slot.toNat + 4 ≤ config.heapStart.toNat := hfit _ (mem_of_lookup hslot)
  have hbytes : (UInt32.ofNat (4 * slot.toNat)).toNat = 4 * slot.toNat := by
    have hheap := config.heapStart.toNat_lt
    have hsize : UInt32.size = 2 ^ 32 := rfl
    exact UInt32.toNat_ofNat_of_lt (by omega)
  have haddress := globalAddress_eq_ok_iff.2 ⟨slot, hslot, hbytes⟩
  obtain ⟨found, hfound, hload⟩ := h.read haddress
  obtain rfl : found = word := Option.some.inj (hfound.symm.trans hlookup)
  simp only [Session.global, haddress, hload, mapError_ok, bind, Except.bind]

theorem mapM_global {s : Session} {entries : List (String × UInt32)} {store : Store}
    (hnames : store.map (·.1) = entries.map (·.1))
    (hwords : ∀ entry ∈ store, s.global entry.1 = .ok entry.2) :
    (entries.mapM fun (name, _) => do return (name, ← s.global name)) = .ok store := by
  induction entries generalizing store with
  | nil =>
    obtain rfl := map_eq_nil_iff.1 hnames
    rfl
  | cons entry rest ih =>
    obtain ⟨name, slot⟩ := entry
    obtain ⟨⟨_, word⟩, others, rfl, rfl, hothers⟩ := map_eq_cons_iff.1 hnames
    refine mapM_cons_eq_ok_iff.2 ⟨(_, word), others, ?_, ?_, rfl⟩
    · simp only [hwords _ mem_cons_self]
      rfl
    · exact ih hothers fun other hother => hwords other (mem_cons_of_mem _ hother)

theorem Settled.session_globals (h : Settled env functions world m) (hplan : env.Planned)
    (hfit : ∀ entry ∈ env.globals, 4 * entry.2.toNat + 4 ≤ config.heapStart.toNat) :
    Session.globals { config, env, machine := m } = .ok world.globals :=
  mapM_global h.declared fun _ hentry => h.session_global hplan hfit hentry

end Globals

end Scalar

open Scalar in
/-- **Compiled scalar programs are correct.** A scalar unit that compiles on its own has a machine
to run on. Its top level runs out of fuel there, or ends as the interpreter says: with the same
value or trap, the same lines printed, and the same words in all globals. -/
theorem compile_scalar_correct {config : Config} {program : Program} {u : CompiledUnit}
    (hcheck : config.check = .ok ()) (hnative : config.numberRepr = .native)
    (hpages : config.minMemoryPages.toNat < 65536) (hscalar : program.isScalar = true)
    (hplain : program.PlainNames) (hfuns : (program.funs.map (·.name)).Nodup)
    (hparams : ∀ fn ∈ program.funs, (fn.parameters.map (·.name)).Nodup)
    (hcalls : program.CallsMatch) (hcompile : compile config {} program = .ok u) :
    ∃ m, Machine.start? config = .ok m ∧ ((m.runMain u).1 = .error .outOfFuel ∨
        ∃ world, Ends (evaluate program) ((m.runMain u).1, world) ∧
          (m.runMain u).2.output = world.output ∧
          Session.globals { config, env := u.env, machine := (m.runMain u).2 } =
            .ok world.globals) := by
  obtain ⟨extended, hextend, hfit, hcompiled⟩ := Compiled.of_compile hcompile
  obtain ⟨m, hstart, hroom, houtput⟩ := exists_start hcheck hpages
  have hplan : extended.Planned := planned_of_extend planned_empty hextend
  have hbelow : ∀ entry ∈ extended.globals, 4 * entry.2.toNat + 4 ≤ config.heapStart.toNat :=
    fun entry hentry => hplan.slot_below_heap (Config.layout_of_check hcheck).1 hfit hentry
  have hmirrors : Mirrors extended (m.load u).functions {} (m.load u) :=
    ⟨houtput, rfl, fun entry hentry => (hbelow entry hentry).trans hroom, nofun⟩
  have hloaded := Loaded.of_compiled hcompiled hnative hplan hfuns hplain m
  have hcovered : ∀ fn ∈ program.funs, Covered program (program.context config extended) fn :=
    fun fn hfn => covered_of_isScalar hscalar hplain hparams hcalls hfn
  obtain ⟨hinits, hstmts⟩ : (∀ init ∈ program.inits, init.value.isScalar = true) ∧
      Stmt.allScalar program.stmts = true := by
    simp only [Program.isScalar, Bool.and_eq_true, all_eq_true] at hscalar
    exact ⟨hscalar.1.1, hscalar.2⟩
  have hpasses : Lowering.Passes program.arityOf (program.context config extended)
      (Stmt.allCallSites program.stmts) :=
    fun site hsite => hcalls.passes config extended site (mem_append_right _ hsite)
  obtain ⟨later, hrun, -⟩ := hcompiled.main
  have hanswers := topLevel_answers hloaded hcovered hinits hstmts hplain.of_stmts hpasses hextend
    hrun hmirrors
  have hmem : u.main ∈ u.allFunctions :=
    mem_append_left _ (mem_append_right _ (mem_singleton_self _))
  have hmain : (m.load u).function? mainName = some u.main := by
    rw [← hcompiled.main_name]
    exact hcompiled.function?_load hfuns hmem (by rw [hcompiled.main_name]; decide) m
  refine ⟨m, hstart, ?_⟩
  rw [Machine.runMain, call_eq, hmain, hcompiled.env_eq]
  rcases call_of_shows hanswers with hcut | ⟨world, hends, hsettled⟩
  · exact .inl hcut
  · exact .inr ⟨world, hends, hsettled.output, hsettled.session_globals hplan hbelow⟩

/-- A unit that adds up factorials in a loop. The parameter of the function hides a global. -/
def Scalar.factorials : Program where
  inits := [{ name := "total", ty := .number, value := .num 0 },
    { name := "n", ty := .number, value := .num 0 }]
  funs := [{
    name := "factorial"
    parameters := [{ name := "n", ty := .number }]
    body := [
      .cond (.binary .bool .lt (.id .number "n") (.ofLiteral (.num 1)))
        [.ret (.ofLiteral (.num 1))] [],
      .assign (.single (.id "total") .number)
        (.binary .number .plus (.id .number "total") (.ofLiteral (.num 1))),
      .ret (.binary .number .mul (.id .number "n") (.call .number "factorial"
        [.binary .number .minus (.id .number "n") (.ofLiteral (.num 1))]))] }]
  stmts := [
    .loop (.binary .bool .lt (.id .number "n") (.ofLiteral (.num 4)))
      [.expr (.printOf (.call .number "factorial" [.id .number "n"])),
       .assign (.single (.id "n") .number)
        (.binary .number .plus (.id .number "n") (.ofLiteral (.num 1)))],
    .expr (.printOf (.id .number "total"))]

open Scalar in
theorem Scalar.factorials_correct :
    ∃ u m world, compile {} {} factorials = .ok u ∧ Machine.start? {} = .ok m ∧
      (m.runMain u).1 = .ok 6 ∧ Ends (evaluate factorials) (.ok 6, world) ∧
      world.output.toList = ["1", "1", "2", "6", "6"] ∧
      Session.globals { config := {}, env := u.env, machine := (m.runMain u).2 } =
        .ok world.globals := by
  have hcalls : factorials.CallsMatch := by
    unfold Program.CallsMatch
    decide
  have houtcome : outcome? {} factorials = some (.ok 6, ["1", "1", "2", "6", "6"]) := by
    decide +kernel
  obtain ⟨u, m, hu, hm, hrun⟩ := outcome?_eq_some_iff.1 houtcome
  obtain ⟨hvalue, hprinted⟩ := Prod.mk.inj hrun
  obtain ⟨m', hm', hends⟩ := compile_scalar_correct (by decide) rfl (by decide) (by decide)
    (by decide +kernel) (by decide) (by decide) hcalls hu
  obtain rfl : m = m' := Except.ok.inj (hm.symm.trans hm')
  rw [hvalue] at hends
  rcases hends with hcut | ⟨world, hends, houtput, hglobals⟩
  · cases hcut
  · refine ⟨u, m, world, hu, hm, hvalue, hends, ?_, hglobals⟩
    rw [← houtput, hprinted]

end TypedWasm
