import TypedWasm.Proofs.Bounds.Units
import TypedWasm.Proofs.Typed.Checking
import TypedWasm.Proofs.Typed.Statements
import TypedWasm.Session

/-!
# The heap head over whole sessions

A session runs consistent units one after another on one machine, and all of them share a map of the
heap. So the heap head never goes down, and nothing but the allocator writes it.
-/

namespace TypedWasm

open Environment Exec Failing Helper List Memory Option

variable {name cls : String} {address : UInt32} {m : Machine}

/-! ### Functions of a unit -/

namespace Typed

variable {env' env : Environment}

theorem Common.callees_of_found {common : Common}
    (hfound : ∀ name ∈ common.context.callables, ∃ signature,
      common.typing.signatures name = some signature ∧
        ∀ func, common.setting.functions.find? (·.name == name) = some func →
          ∃ fn later, fn.Consistent common.typing signature ∧
            (Lowering.function fn name).run common.context {} = (.ok func, later))
    (fuel : Nat) : common.Callees fuel := by
  induction fuel using Nat.strongRecOn with
  | ind fuel ih =>
    intro name hname
    obtain ⟨signature, hsignature, hfunc⟩ := hfound name hname
    refine ⟨signature, hsignature, fun func hfind => ?_⟩
    obtain ⟨fn, later, hfn, hrun⟩ := hfunc func hfind
    refine ⟨?_, fun fewer hfewer blocks m args hargs => ?_⟩
    · obtain ⟨_, _, _, _, _, _, rfl, -⟩ := Lowering.Body.run_eq_ok_iff.1 hrun
      rw [hfn.params, length_map]
      exact length_map _
    · exact function_upholds hfn hrun (ih fewer hfewer) hargs

/-! ### Loading a unit -/

theorem fieldTypes?_of_grows (h : env.Grows env') {types : List Ty}
    (htypes : env.fieldTypes? cls = some types) : env'.fieldTypes? cls = some types := by
  obtain ⟨layout, hlayout, rfl⟩ := map_eq_some_iff.1 htypes
  obtain ⟨layout', hlayout', hfields, -⟩ := h.classes cls layout hlayout
  rw [Environment.fieldTypes?, hlayout', map_some, hfields]

theorem globalAddress_of_grows (h : env.Grows env')
    (haddress : env.globalAddress name = .ok address) : env'.globalAddress name = .ok address := by
  obtain ⟨slot, hslot, hvalue⟩ := globalAddress_eq_ok_iff.1 haddress
  exact globalAddress_eq_ok_iff.2 ⟨slot, h.globals name slot hslot, hvalue⟩

/-- A map of the heap still holds when a unit is loaded that declares more. A new global has a slot
that was never written, so it is none. -/
theorem Describes.extend {setting setting' : Setting} {blocks : Blocks} {m' : Machine}
    (h : Describes setting blocks m) (hheap : setting'.heapStart = setting.heapStart)
    (hglobals : setting'.globals = setting.globals) (hgrows : setting.env.Grows setting'.env)
    (hfunctions : m'.functions = setting'.functions) (hcells : m'.memory.cells = m.memory.cells) :
    Describes setting' blocks m' := by
  obtain ⟨hwords, hbytes⟩ := words_of_cells hcells
  have hhead : m'.heapHead = m.heapHead := congrFun hwords _
  refine ⟨hfunctions, ?_, ?_, ?_, h.apart, fun address kind hat => ?_, ?_, ?_⟩
  · rw [hheap, hhead]
    exact h.head_ge
  · rw [hhead, hbytes]
    exact h.fresh
  · rw [hheap, hhead]
    exact h.inside
  · have hfilled :=
      (h.filled address kind hat).mono (fun _ _ => fieldTypes?_of_grows hgrows) (.refl _)
    exact hfilled.congr (fun _ _ => by rw [hwords]) kind.headerSize_le
  · intro name address ty haddress hty
    rw [hglobals] at hty
    rw [hwords]
    by_cases hold : ∃ found, setting.env.globalAddress name = .ok found
    · obtain ⟨found, hfound⟩ := hold
      cases (globalAddress_of_grows hgrows hfound).symm.trans haddress
      exact (h.globals name address ty hfound hty).mono (fun _ _ => fieldTypes?_of_grows hgrows)
        (.refl _)
    · obtain ⟨hlow, hhigh⟩ := setting'.placed name address haddress
      rw [hheap] at hhigh
      rw [h.spare address.toNat (setting'.aligned name address haddress) hlow hhigh ?_]
      · exact isValue_zero _ _ _
      · intro other found hfound hsame
        obtain rfl : found = address := UInt32.toNat_inj.1 hsame
        cases setting'.distinct other name found (globalAddress_of_grows hgrows hfound) haddress
        exact hold ⟨found, hfound⟩
  · rw [hheap, hwords]
    intro address haligned hlow hhigh hfree
    exact h.spare address haligned hlow hhigh fun name found hfound =>
      hfree name found (globalAddress_of_grows hgrows hfound)

end Typed

/-! ### Runs in order -/

/-- A run of the top level of a unit: its body, and the state it starts from. -/
structure Activation where
  body : Code
  state : State

def Activation.Visits (run : Activation) (e : Event) : Prop :=
  Exec.Visits mainName (.listing [] run.body) run.state e

open Typed (Rising rising_of_guarded)

/-- Runs one after another, of which the last ended with a machine. -/
structure Orderly (heapStart : Nat) (runs : List Activation) (m : Machine) : Prop where
  guarded : ∀ run ∈ runs, ∀ e, run.Visits e → e.Guarded heapStart
  ended : ∀ run ∈ runs, ∀ e, run.Visits e →
    m.fuel ≤ e.result.2.machine.fuel ∧ Rising e.result.2.machine m
  ordered : ∀ run ∈ runs, ∀ run' ∈ runs, ∀ e e', run.Visits e → run'.Visits e' → Ordered Rising e e'

theorem orderly_nil (heapStart : Nat) (m : Machine) : Orderly heapStart [] m :=
  ⟨nofun, nofun, nofun⟩

theorem Orderly.concat {heapStart : Nat} {runs : List Activation} {run : Activation}
    (h : Orderly heapStart runs m) (hfuel : run.state.machine.fuel = m.fuel)
    (hhead : run.state.machine.heapHead = m.heapHead)
    (hguarded : ∀ e, run.Visits e → e.Guarded heapStart) :
    Orderly heapStart (runs ++ [run]) (exec run.body run.state).2.machine := by
  have hmoves : Always (Event.Moves Rising) mainName (.listing [] run.body) run.state :=
    fun e he => (hguarded e he).rises
  have hburn : ∀ s : State, Rising s.machine s.burn.machine := fun _ => Nat.le_refl _
  have hstarted : ∀ e, run.Visits e → e.fuel < m.fuel ∧ Rising m e.state.machine := by
    intro e he
    have hstart := (between_of_visits hburn hmoves he).1
    rwa [Rising, hhead, hfuel] at hstart
  have hall : Rising m (exec run.body run.state).2.machine := by
    have := moves_listing hburn hmoves
    rwa [Rising, hhead] at this
  have hless : (exec run.body run.state).2.machine.fuel ≤ m.fuel :=
    hfuel ▸ (exec_keeps run.body run.state).fuel
  refine ⟨fun a ha e he => ?_, fun a ha e he => ?_, fun a ha b hb e e' he he' => ?_⟩
  · rcases mem_append.1 ha with hold | hnew
    · exact h.guarded a hold e he
    · cases mem_singleton.1 hnew
      exact hguarded e he
  · rcases mem_append.1 ha with hold | hnew
    · obtain ⟨hlast, hrises⟩ := h.ended a hold e he
      exact ⟨Nat.le_trans hless hlast, Nat.le_trans hrises hall⟩
    · cases mem_singleton.1 hnew
      exact ended_of_visits hburn hmoves he rfl
  · rcases mem_append.1 ha with hold | hnew <;> rcases mem_append.1 hb with hold' | hnew'
    · exact h.ordered a hold b hold' e e' he he'
    · cases mem_singleton.1 hnew'
      exact (ordered_across (h.ended a hold e he) (hstarted e' he') (h.guarded a hold e he).rises).1
    · cases mem_singleton.1 hnew
      exact (ordered_across (h.ended b hold' e' he') (hstarted e he)
        (h.guarded b hold' e' he').rises).2
    · cases mem_singleton.1 hnew
      cases mem_singleton.1 hnew'
      exact ordered_of_visits hburn hmoves he he'

/-! ### Sessions -/

/-- The run of the top level of a unit on the machine of a session. -/
def Session.activation (s : Session) (u : CompiledUnit) : Activation where
  body := u.main.body
  state := { machine := s.machine.load u, locals := Frame.ofCall u.main [] }

/-- The runs of a session of units, each compiled against the environment the session has by then
and consistent with types of its own. -/
inductive Session.Ran (config : Config) : List Typing → List Activation → Session → Prop
  | start {s : Session} (hstart : Session.start? config = .ok s) : Ran config [] [] s
  | unit {typings : List Typing} {runs : List Activation} {s s' : Session} {program : Program}
      {u : CompiledUnit} {t : Typing} (h : Ran config typings runs s)
      (hcompile : s.compile program = .ok (u, s')) (henv : t.env = u.env) (hlocals : t.locals = [])
      (hconsistent : program.Consistent t) :
      Ran config (typings ++ [t]) (runs ++ [s'.activation u]) (s'.run u).2

/-- Types that hold over a session: a global has one type in all units, and an index into a tuple
that is not a literal gives plain words only. -/
structure Typing.Steady (globals : String → Option Ty) (t : Typing) : Prop where
  globals_eq : t.globals = globals
  picks_plain : ∀ items ty, t.picks items ty → ty.isPlain = true

namespace Typed

variable {config : Config} {env : Environment} {globals : String → Option Ty} {program : Program}
  {s : Session}

/-- What a run takes for granted about globals that lie between the heap head and the heap. -/
def Setting.planned (config : Config) (env : Environment) (globals : String → Option Ty)
    (functions : List Func) (hheap : 4 < config.heapStart.toNat) (hplanned : env.Planned)
    (hinside : ∀ name slot, env.globals.lookup name = some slot →
      4 ≤ 4 * slot.toNat ∧ 4 * slot.toNat + 4 ≤ config.heapStart.toNat)
    (helpers : ∀ (helper : Helper) (fn : Func), functions.find? (·.name == helper.name) = some fn →
      fn = helper.function config.listGrowthSlack) : Setting where
  heapStart := config.heapStart.toNat
  env
  globals
  functions
  slack := config.listGrowthSlack
  heap_pos := hheap
  placed name address haddress := by
    obtain ⟨slot, hslot, hvalue⟩ := globalAddress_eq_ok_iff.1 haddress
    rw [hvalue]
    exact hinside name slot hslot
  aligned name address haddress := by
    obtain ⟨slot, -, hvalue⟩ := globalAddress_eq_ok_iff.1 haddress
    omega
  distinct name name' address haddress haddress' := by
    obtain ⟨slot, hslot, hvalue⟩ := globalAddress_eq_ok_iff.1 haddress
    obtain ⟨slot', hslot', hvalue'⟩ := globalAddress_eq_ok_iff.1 haddress'
    obtain rfl : slot = slot' := UInt32.toNat_inj.1 (by omega)
    exact hplanned.slot_injective hslot hslot'
  helpers

theorem layout_of_declares {units : List Program} (h : env.Declares units)
    (hfields : ∀ cls ∈ declaredClasses units, ∀ field ∈ cls.fields, field.Consistent)
    {found : ClassLayout} (hfound : env.classes.lookup cls = some found) {i : Nat}
    {field : FieldLayout} (hfield : found.fields[i]? = some field) :
    field.offset = UInt32.ofNat i ∧ field.ty.Takes field.default.ty := by
  have hrecorded := h.recorded.fields cls
  rw [hfound, map_some] at hrecorded
  obtain ⟨declared, hdeclared, hsame⟩ := map_eq_some_iff.1 hrecorded.symm
  rw [← hsame, ClassLayout.ofFields, getElem?_mapIdx] at hfield
  obtain ⟨init, hinit, rfl⟩ := map_eq_some_iff.1 hfield
  exact ⟨rfl, hfields declared (mem_of_find?_eq_some hdeclared) init (mem_of_getElem? hinit)⟩

section Loading

variable {program : Program} {u : CompiledUnit} {t : Typing} {m : Machine}

theorem helpers_load (h : Compiled config env program u) (hconsistent : program.Consistent t)
    (hhelpers : ∀ (helper : Helper) (fn : Func), m.functions.find? (·.name == helper.name) =
      some fn → fn = helper.function config.listGrowthSlack) (helper : Helper) (fn : Func)
    (hfn : (m.load u).functions.find? (·.name == helper.name) = some fn) :
    fn = helper.function config.listGrowthSlack := by
  have hmain : u.main.name ≠ helper.name := by
    rw [h.main_name]
    cases helper <;> decide
  have hfree := Program.helper_free hconsistent.fun_names hconsistent.class_names
  have hfunctions : u.functions.reverse.find? (·.name == helper.name) = none := by
    refine find?_eq_none.2 fun other hother => ?_
    have hmem : other.name ∈ program.routines.map (·.2) :=
      h.names ▸ mem_map_of_mem (mem_reverse.1 hother)
    simpa using fun hname : other.name = helper.name => hfree helper (hname ▸ hmem)
  rw [m.functions_load, find?_append, find?_cons_of_neg (by simpa using hmain),
    find?_append, hfunctions, none_or, or_eq_some_iff] at hfn
  rcases hfn with hcarried | ⟨-, hold⟩
  · obtain ⟨other, rfl, -⟩ := h.helpers fn (mem_reverse.1 (mem_of_find?_eq_some hcarried))
    have hname := find?_some hcarried
    rw [beq_iff_eq, name_function] at hname
    rw [eq_of_name_eq hname]
  · exact hhelpers helper fn hold

theorem found_of_load (h : Compiled config env program u) (hconsistent : program.Consistent t)
    (hname : name ∈ (program.context config env).callables) :
    ∃ signature, t.signatures name = some signature ∧
      ∀ func, (m.load u).functions.find? (·.name == name) = some func →
        ∃ fn later, fn.Consistent t signature ∧
          (Lowering.function fn name).run (program.context config env) {} = (.ok func, later) := by
  have hroutine : name ∈ program.routines.map (·.2) := by
    rw [program.routine_names]
    exact hname
  obtain ⟨routine, hmem, rfl⟩ := mem_map.1 hroutine
  obtain ⟨signature, hsignature, -⟩ := hconsistent.routines routine hmem
  refine ⟨signature, hsignature, fun func hfunc => ?_⟩
  have hfree := Program.helper_free hconsistent.fun_names hconsistent.class_names
  rw [h.find?_routine hfree (by rw [h.names]; exact hroutine)] at hfunc
  -- Of several functions with a name the last is found, and all of them have one signature.
  obtain ⟨found, hfound, later, hrun, -⟩ :=
    h.routine_of_function func (mem_reverse.1 (mem_of_find?_eq_some hfunc))
  obtain ⟨signature', hsignature', hfn⟩ := hconsistent.routines found hfound
  have hsame : found.2 = routine.2 := by
    have hname := find?_some hfunc
    obtain ⟨_, _, _, _, _, _, rfl, -⟩ := Lowering.Body.run_eq_ok_iff.1 hrun
    exact eq_of_beq hname
  rw [hsame] at hrun hsignature'
  cases hsignature.symm.trans hsignature'
  exact ⟨found.1, later, hfn, hrun⟩

end Loading

/-- A session whose machine agrees with a map of the heap. -/
structure Sound (config : Config) (globals : String → Option Ty) (s : Session) : Prop where
  config_eq : s.config = config
  declares : ∃ units, s.env.Declares units ∧
    ∀ cls ∈ declaredClasses units, ∀ field ∈ cls.fields, field.Consistent
  heap : ∃ setting blocks, setting.heapStart = config.heapStart.toNat ∧ setting.env = s.env ∧
    setting.globals = globals ∧ setting.slack = config.listGrowthSlack ∧
    Describes setting blocks s.machine

theorem byte_unwritten (pages address : Nat) : Memory.byte { pages } address = 0 := by
  rw [Memory.byte, Memory.cell, Sparse.get_empty]
  show ((0 : UInt32) >>> _).toUInt8 = 0
  rw [UInt32.zero_shiftRight]
  rfl

theorem sound_start (hheap : 4 < config.heapStart.toNat) (hstart : Session.start? config = .ok s) :
    Sound config globals s := by
  obtain ⟨m, hm, hdone⟩ := bind_eq_ok_iff.1 hstart
  cases pure_eq_ok_iff.1 hdone
  refine ⟨rfl, ⟨[], declares_empty, by simp [declaredClasses]⟩, ?_⟩
  let setting := Setting.planned config {} globals [] hheap planned_empty
    (by rintro _ _ ⟨⟩) (by rintro _ _ ⟨⟩)
  refine ⟨setting, fun _ => none, rfl, rfl, rfl, rfl, ?_⟩
  have hhead : m.heapHead.toAddress = config.heapStart.toNat := by
    rw [Machine.eq_of_start hm, Machine.heapHead, word_setWord (by decide)]
    show (config.heapStart.toInt32.toUInt32).toNat = _
    simp
  have hbyte : ∀ address, 4 ≤ address → address < Memory.addressEnd →
      m.memory.byte address = 0 := by
    intro address hlow hhigh
    rw [Machine.eq_of_start hm, byte_setWord (by decide) hhigh, if_neg ?_, byte_unwritten]
    exact fun hinside => Nat.not_lt.2 hlow hinside.2
  refine ⟨Machine.functions_of_start? hm, Nat.le_of_eq hhead.symm, fun address hlow hhigh => ?_,
    by rintro _ _ ⟨⟩, by rintro _ _ _ _ ⟨⟩, by rintro _ _ ⟨⟩, by rintro _ _ _ ⟨⟩,
    fun address _ hlow hhigh _ => ?_⟩
  · rw [hhead] at hlow
    exact hbyte address (by omega) hhigh
  · have hlt : config.heapStart.toNat < 2 ^ 32 := config.heapStart.toNat_lt
    have hend : address + 4 ≤ Memory.addressEnd := by
      have hstart : setting.heapStart = config.heapStart.toNat := rfl
      rw [Memory.addressEnd]
      omega
    rw [word_eq_ofBytes, hbyte _ (by omega) (by omega), hbyte _ (by omega) (by omega),
      hbyte _ (by omega) (by omega), hbyte _ (by omega) (by omega)]
    decide

/-- Loading a consistent unit and running its top level keeps the session sound, and every
instruction on the way keeps the heap head. -/
theorem Sound.unit (hheap : 4 < config.heapStart.toNat) (hchecked : config.listBoundsCheck = true)
    {s' : Session} {u : CompiledUnit} {t : Typing} (h : Sound config globals s)
    (hcompile : s.compile program = .ok (u, s')) (henv : t.env = u.env)
    (hsteady : t.Steady globals) (hlocals : t.locals = []) (hconsistent : program.Consistent t)
    (hregular : ∀ e, (s'.activation u).Visits e → e.Regular) : Sound config globals (s'.run u).2 ∧
      (∀ e, (s'.activation u).Visits e → e.Guarded config.heapStart.toNat) ∧
      (s'.run u).2.machine = (exec u.main.body (s'.activation u).state).2.machine := by
  obtain ⟨u', hu, hdone⟩ := bind_eq_ok_iff.1 hcompile
  cases pure_eq_ok_iff.1 hdone
  obtain ⟨units, hdeclares, hfields⟩ := h.declares
  obtain ⟨before, blocks, hstart, hbefore, htypes, hslack, hdescribes⟩ := h.heap
  rw [h.config_eq] at hu
  obtain ⟨extended, hextend, hfit, hcompiled⟩ := Compiled.of_compile hu
  have hleft : u.env = extended := by
    rw [hcompiled.env_eq, leave_of_extend hextend]
  have hdeclares' := hdeclares.extend hextend
  have hfields' : ∀ cls ∈ declaredClasses (units ++ [program]), ∀ field ∈ cls.fields,
      field.Consistent := by
    intro cls hcls
    rw [declaredClasses, flatMap_append, flatMap_singleton, mem_append] at hcls
    exact hcls.elim (hfields cls) (hconsistent.fields cls)
  have hhelpers : ∀ (helper : Helper) (fn : Func),
      (s.machine.load u).functions.find? (·.name == helper.name) = some fn →
      fn = helper.function config.listGrowthSlack := by
    refine helpers_load hcompiled hconsistent fun helper fn hfn => ?_
    rw [hdescribes.functions] at hfn
    rw [before.helpers helper fn hfn, hslack]
  let setting := Setting.planned config extended globals (s.machine.load u).functions hheap
    hdeclares'.dense.planned (fun _ _ hslot => hdeclares'.dense.word_inside hfit hslot) hhelpers
  have hloaded : Describes setting blocks (s.machine.load u) :=
    hdescribes.extend hstart.symm htypes.symm (hbefore ▸ extend_grows hextend) rfl rfl
  let common : Common :=
    { setting, typing := t, context := program.context config extended
      env_eq := by rw [hlocals]; exact (leave_of_extend hextend).symm
      typing_env := henv.trans hleft, typing_globals := hsteady.globals_eq
      picks_plain := hsteady.picks_plain, checked := hchecked
      layout := fun _ _ hfound _ _ hfield => layout_of_declares hdeclares' hfields' hfound hfield }
  have hcallees := @Common.callees_of_found common fun name hname =>
    found_of_load hcompiled hconsistent hname
  obtain ⟨later, hmain, -⟩ := hcompiled.main
  have hupholds : Upholds setting s.machine.fuel mainName [] u.main.body blocks
      ⟨s.machine.load u, Frame.ofCall u.main [], []⟩ (Upholds.body fun _ _ => True) :=
    common.topLevel_upholds hlocals hconsistent.inits hconsistent.stmts hmain
      (hcallees s.machine.fuel)
  obtain ⟨hguarded, blocks', hgrow, hdescribes', -⟩ :=
    hupholds hloaded s.machine.fuel (Nat.le_refl _) hregular
  have hmachine : (s.machine.runMain u).2 = (exec u.main.body
      { machine := s.machine.load u, locals := Frame.ofCall u.main [] }).2.machine := by
    rw [Machine.runMain, Machine.call_eq, hcompiled.function?_main]
    exact machine_of_call _ _ _
  refine ⟨⟨h.config_eq, ⟨_, hleft ▸ hdeclares', hfields'⟩, setting, blocks', rfl, hleft.symm, rfl,
    rfl, ?_⟩,
    hguarded, hmachine⟩
  rw [Session.run]
  dsimp only
  rw [hmachine]
  exact hdescribes'

end Typed

/-! ### Whole sessions -/

section

variable {config : Config} {globals : String → Option Ty} {typings : List Typing}
  {runs : List Activation} {s : Session}

/-- After any number of units the session is sound, and its runs follow one another. -/
theorem Session.Ran.sound (h : Session.Ran config typings runs s)
    (hheap : 4 < config.heapStart.toNat) (hchecked : config.listBoundsCheck = true)
    (hsteady : ∀ t ∈ typings, t.Steady globals)
    (hregular : ∀ run ∈ runs, ∀ e, run.Visits e → e.Regular) :
    Typed.Sound config globals s ∧ Orderly config.heapStart.toNat runs s.machine := by
  induction h with
  | start hstart => exact ⟨Typed.sound_start hheap hstart, orderly_nil _ _⟩
  | @unit typings runs s s' program u t h hcompile henv hlocals hconsistent ih =>
    obtain ⟨hsound, horderly⟩ := ih (fun t ht => hsteady t (mem_append_left _ ht))
      fun run hrun => hregular run (mem_append_left _ hrun)
    obtain ⟨hsound', hguarded, hmachine⟩ := hsound.unit hheap hchecked hcompile henv
      (hsteady t (mem_append_right _ (mem_singleton_self _))) hlocals hconsistent
      (hregular _ (mem_append_right _ (mem_singleton_self _)))
    obtain ⟨u', -, hdone⟩ := bind_eq_ok_iff.1 hcompile
    cases pure_eq_ok_iff.1 hdone
    refine ⟨hsound', ?_⟩
    rw [hmachine]
    exact horderly.concat rfl rfl hguarded

end

namespace Linked

def declaring : Program where
  inits := [{ name := "first", ty := .cls "Node", value := .none },
    { name := "items", ty := .list .number, value := .none }]
  classes := [{ name := "Node", fields := [{ name := "value", ty := .number, value := .num 0 },
    { name := "next", ty := .cls "Node", value := .none }] }]
  stmts := [.assign (.single (.id "first") (.cls "Node")) (.construct (.cls "Node") "Node" []),
    .assign (.single (.lookup (.id (.cls "Node") "first") "value") .number) (.ofLiteral (.num 5))]

def growing : Program where
  stmts := [
    .assign (.single (.lookup (.id (.cls "Node") "first") "next") (.cls "Node"))
      (.construct (.cls "Node") "Node" []),
    .assign (.single (.id "items") (.list .number)) (.binary (.list .number) .plus
      (.listOf .number [.ofLiteral (.num 1), .ofLiteral (.num 2)])
      (.listOf .number [.ofLiteral (.num 3)]))]

def pair : Ty := .tuple [.cls "Node"]

def globals (name : String) : Option Ty :=
  [("first", Ty.cls "Node"), ("items", .list .number), ("pair", pair), ("index", .number),
    ("text", .string)].lookup name

def opened (config : Config) : Session := (Session.start? config).toOption.getD default

/-- A unit compiled in a session, and the session it leaves. -/
def compiled (s : Session) (program : Program) : CompiledUnit × Session :=
  (s.compile program).toOption.getD default

def ran (unit : CompiledUnit × Session) : Session := (unit.2.run unit.1).2

def first : CompiledUnit × Session := compiled (opened {}) declaring

def second : CompiledUnit × Session := compiled (ran first) growing

/-- What the names at the top level of a unit stand for. -/
def typing (unit : CompiledUnit × Session) : Typing :=
  { env := unit.1.env, globals, signatures := fun _ => none }

def node (value : Int) : ClassDef :=
  { name := "Node", fields := [{ name := "value", ty := .number, value := .num value }] }

def write (object : Expr) : Stmt :=
  .assign (.single (.lookup object "value") .number) (.ofLiteral (.num 5))

/-- Makes a list. -/
def listing : Program where
  stmts := [.expr (.listOf .number [.ofLiteral (.num 1)])]

/-- Declares a number. -/
def counting : Program where
  inits := [{ name := "first", ty := .number, value := .num 1 }]

/-- Has no room for a string. -/
def narrow : Config := { heapStart := 65532, minMemoryPages := 1, maxMemoryPages := some 1 }

def counted : CompiledUnit × Session := compiled (opened narrow) counting

end Linked

end TypedWasm
