import TypedWasm.Proofs.Isolation
import TypedWasm.Proofs.Renamed.Bodies

/-!
# Compiling stays within 32 bits

Slots and class layouts stay small from unit to unit, as no unit is large and all globals lie below
the heap. So every unit of a session compiles or is refused with its faults, unless lists reserve
too many places.
-/

namespace TypedWasm

open Failing List Option

variable {config : Config} {program : Program}

theorem Config.check_of_ofToml {text : String} (h : Config.ofToml text = .ok config) :
    config.check = .ok () := by
  rw [Config.ofToml] at h
  split at h
  · cases h
  · obtain ⟨_, hcheck, hdone⟩ := bind_eq_ok_iff.1 h
    cases pure_eq_ok_iff.1 hdone
    exact hcheck

theorem checkGlobalsFit_ne_overflow {env : Environment} (hheap : 4 < config.heapStart.toNat)
    (overflow : Overflow) : checkGlobalsFit env config ≠ .error (.overflow overflow) := by
  have hwords : (config.heapStart / wordSize).toNat = config.heapStart.toNat / 4 :=
    UInt32.toNat_div _ _
  have hone : (1 : UInt32).toNat ≤ (config.heapStart / wordSize).toNat := by
    rw [hwords]
    show 1 ≤ _
    omega
  rw [checkGlobalsFit, Config.maxGlobalSlot, Offset.sub, if_pos hone]
  split
  · simp
  · dsimp only
    split <;> simp

namespace Environment

variable {env env' : Environment} {cls : ClassDef}

theorem exists_addGlobals {names : List String} (h : env.nextSlot.toNat + names.length < 2 ^ 32) :
    ∃ added, env.addGlobals names = .ok added := by
  induction names generalizing env with
  | nil => exact ⟨env, rfl⟩
  | cons name rest ih =>
    rw [length_cons] at h
    have hfirst : ∃ between, env.addGlobal name = .ok between := by
      rw [addGlobal]
      split
      · exact ⟨env, rfl⟩
      · have hone : (1 : UInt32).toNat = 1 := rfl
        obtain ⟨next, hnext, -⟩ := @Offset.exists_add env.nextSlot 1 (by omega)
        exact ⟨_, bind_eq_ok_iff.2 ⟨next, hnext, rfl⟩⟩
    obtain ⟨between, hbetween⟩ := hfirst
    have hnext : between.nextSlot.toNat ≤ env.nextSlot.toNat + 1 := by
      rcases addGlobal_cases hbetween with ⟨-, rfl⟩ | ⟨-, -, hnext⟩
      · omega
      · omega
    obtain ⟨added, hadded⟩ := @ih between (by omega)
    exact ⟨added, bind_eq_ok_iff.2 ⟨between, hbetween, hadded⟩⟩

/-- The layouts of an environment leave room for the addresses of fields. -/
def ClassRoom (config : Config) (env : Environment) : Prop :=
  ∀ name layout, env.classes.lookup name = some layout → layout.Room config

theorem room_ofClass (h : cls.extent.Small config) : (ClassLayout.ofClass cls).Room config := by
  have hfields := h.right.left
  have hcount : cls.fields.length < 2 ^ 20 :=
    Nat.lt_of_le_of_lt (Extent.length_le_nodes VarInit.one_le_nodes _) hfields.nodes
  refine ⟨?_, fun field hfield => ?_, fun field hfield => ?_⟩
  · simpa [ClassLayout.ofClass, ClassLayout.ofFields] using hcount
  · obtain ⟨index, hindex, rfl⟩ := mem_mapIdx.1 hfield
    exact Nat.lt_of_le_of_lt (Block.toNat_ofNat_le index) (by omega)
  · obtain ⟨index, hindex, rfl⟩ := mem_mapIdx.1 hfield
    have hinit := hfields.of_mem (getElem_mem hindex)
    exact hinit.right.literals _ (mem_singleton_self _)

theorem ClassRoom.addClass (hroom : env.ClassRoom config) (hsmall : cls.extent.Small config)
    (h : env.addClass cls = .ok env') : env'.ClassRoom config := by
  intro name layout hlayout
  rcases addClass_cases h with ⟨known, hknown, -, rfl⟩ | ⟨hnew, rfl⟩
  · dsimp only at hlayout
    rw [lookup_setClass] at hlayout
    split at hlayout
    · rw [hknown, map_some, Option.some.injEq] at hlayout
      subst hlayout
      -- Methods take no place in an instance.
      have hsame := hroom cls.name known hknown
      exact ⟨hsame.count, hsame.offsets, hsame.defaults⟩
    · exact hroom name layout hlayout
  · dsimp only at hlayout
    rw [lookup_append, or_eq_some_iff] at hlayout
    rcases hlayout with hold | ⟨-, hadded⟩
    · exact hroom name layout hold
    · rw [lookup_cons] at hadded
      split at hadded
      · cases hadded
        exact room_ofClass hsmall
      · cases hadded

theorem ClassRoom.addClasses {classes : List ClassDef} (hroom : env.ClassRoom config)
    (hsmall : (Extent.all ClassDef.extent classes).Small config)
    (h : env.addClasses classes = .ok env') : env'.ClassRoom config := by
  induction classes generalizing env with
  | nil =>
    cases h
    exact hroom
  | cons cls rest ih =>
    rw [Extent.all] at hsmall
    obtain ⟨between, hfirst, hrest⟩ := bind_eq_ok_iff.1 h
    exact ih (hroom.addClass hsmall.left hfirst) hsmall.right hrest

/-- The environments of sessions of small units: the fresh one, and those that units leave. -/
inductive Reached (config : Config) : Environment → Prop
  | fresh : Reached config {}
  | compiled {env : Environment} {program : Program} {u : CompiledUnit} (h : Reached config env)
      (hsmall : program.extent.Small config) (hcompile : compile config env program = .ok u) :
      Reached config u.env

/-- An environment whose globals lie below the heap, and whose classes are small. -/
structure Bounded (config : Config) (env : Environment) : Prop where
  planned : env.Planned
  next : 4 * env.nextSlot.toNat ≤ config.heapStart.toNat
  classes : env.ClassRoom config

theorem Bounded.extend (hheap : 4 < config.heapStart.toNat) (h : env.Bounded config)
    (hsmall : program.extent.Small config) (hextend : env.extend program = .ok env')
    (hfit : checkGlobalsFit env' config = .ok ()) : env'.Bounded config := by
  obtain ⟨between, hglobals, hclasses⟩ := extend_eq_ok_iff.1 hextend
  obtain ⟨-, hkept, -⟩ := addGlobals_grows hglobals
  have hroom : between.ClassRoom config := by
    intro name layout hlayout
    rw [hkept] at hlayout
    exact h.classes name layout hlayout
  refine ⟨planned_of_extend h.planned hextend, nextSlot_le_heap hheap hfit, ?_⟩
  exact hroom.addClasses hsmall.right.right.right.left hclasses

theorem bounded_of_reached (hheap : 4 < config.heapStart.toNat) (h : env.Reached config) :
    env.Bounded config := by
  induction h with
  | fresh => exact ⟨planned_empty, Nat.le_of_lt hheap, nofun⟩
  | compiled _ hsmall hcompile ih =>
    obtain ⟨extended, functions, hextend, hfit, -, -, rfl⟩ := compile_eq_ok_iff.1 hcompile
    obtain ⟨hplanned, hnext, hclasses⟩ := ih.extend hheap hsmall hextend hfit
    exact ⟨⟨hplanned.names, hplanned.slots, hplanned.below⟩, hnext, hclasses⟩

theorem Bounded.room (hheap : 4 < config.heapStart.toNat) (h : env.Bounded config)
    (hslack : config.listGrowthSlack.toNat + 2 ^ 20 < 2 ^ 29) : env.Room config := by
  refine ⟨hslack, fun name slot hslot => ?_, h.classes⟩
  have hbelow := h.planned.below _ (mem_of_lookup hslot)
  have hnext := h.next
  have hword := config.heapStart.toNat_lt
  dsimp only at hbelow
  omega

theorem Bounded.extend_ne_overflow (h : env.Bounded config) (hsmall : program.extent.Small config)
    (overflow : Overflow) : env.extend program ≠ .error (.overflow overflow) := by
  have hnext := h.next
  have hword := config.heapStart.toNat_lt
  have hcount : program.inits.length < 2 ^ 20 :=
    Nat.lt_of_le_of_lt (Extent.length_le_nodes VarInit.one_le_nodes _) hsmall.right.left.nodes
  obtain ⟨added, hadded⟩ :=
    @exists_addGlobals env.leave (program.inits.map (·.name)) (by
      rw [length_map, leave]
      dsimp only
      omega)
  rw [Environment.extend, hadded]
  cases hclasses : added.addClasses program.classes with
  | ok extended => simp [Bind.bind, Except.bind, hclasses]
  | error fault => simp [Bind.bind, Except.bind, hclasses]

end Environment

theorem small_of_mem_routines (h : program.extent.Small config) {routine : FunDef × String}
    (hmem : routine ∈ program.routines) : routine.1.extent.Small config := by
  rw [Program.routines, mem_append] at hmem
  rcases hmem with hfun | hmethod
  · obtain ⟨fn, hfn, rfl⟩ := mem_map.1 hfun
    exact h.right.right.left.of_mem hfn
  · obtain ⟨cls, hcls, hmethod⟩ := mem_flatMap.1 hmethod
    obtain ⟨fn, hfn, rfl⟩ := mem_map.1 hmethod
    exact (h.right.right.right.left.of_mem hcls).right.right.of_mem hfn

namespace Lowering

variable {context : Context} {overflow : Overflow}

theorem bind_ne_overflow {α β : Type} {step : Lower α} {next : α → Lower β} {progress : Progress}
    (h : ∀ later, step.run context progress ≠ (.error (.overflow overflow), later))
    (hnext : ∀ value between later,
      (next value).run context between ≠ (.error (.overflow overflow), later)) (later : Progress) :
    (step >>= next).run context progress ≠ (.error (.overflow overflow), later) := by
  intro hrun
  rw [Lower.run_bind] at hrun
  split at hrun
  · exact hnext _ _ _ hrun
  · next hstep =>
    cases hrun
    exact h _ hstep

section

variable (hroom : context.env.Room context.config)
include hroom

theorem binding_room (names : List String) :
    (context.binding names).env.Room (context.binding names).config :=
  ⟨hroom.slack, hroom.globals, hroom.classes⟩

theorem Body.ne_overflow {body : Body}
    (hinits : (Extent.all VarInit.extent body.inits).Small context.config)
    (hstmts : (Stmt.extents body.stmts).Small context.config) (later : Progress) :
    body.run context {} ≠ (.error (.overflow overflow), later) := by
  have hbound := binding_room hroom body.bound
  refine @bind_ne_overflow (context.binding body.bound) _ _ _ _ _ _ ?_ (fun _ between => ?_) later
  · exact (body.start_renumbers (v := .bounded _ hbound) (fun _ => hinits)
      (body.isLocal_binding context)).ne_overflow {} overflow
  · refine bind_ne_overflow ?_ fun _ _ _ hrun => by cases hrun
    exact (block_renumbers (v := .bounded _ hbound) body.stmts (fun _ => hstmts)
      (.unknown rfl)).ne_overflow between overflow

end

end Lowering

theorem bodies_ne_overflow {extended : Environment} (hroom : extended.Room config)
    (hsmall : program.extent.Small config) {callables : List String} {body : Lowering.Body}
    (hbody : body ∈ program.bodies) (overflow : Overflow) :
    outcomeAlone config extended callables body ≠ .error (.overflow overflow) := by
  have hruns : ∀ later, body.run { config, env := extended, callables } {} ≠
      (.error (.overflow overflow), later) := by
    rw [Program.bodies, mem_append, mem_singleton] at hbody
    rcases hbody with hroutine | rfl
    · obtain ⟨⟨fn, name⟩, hmem, rfl⟩ := mem_map.1 hroutine
      have hfn := (small_of_mem_routines hsmall hmem).right.right
      exact Lowering.Body.ne_overflow hroom hfn.left hfn.right
    · exact Lowering.Body.ne_overflow hroom hsmall.right.left hsmall.right.right.right.right
  exact fun hoverflow => hruns _ (Prod.ext hoverflow rfl)

/-- **Compiling stays within 32 bits.** Under a configuration read from a file, unless it reserves
too many places past the contents of a list, a small unit compiles in every environment of a session
or is refused with its faults: no slot, address, offset or size overflows on the way. -/
theorem compile_within_range {text : String} {config : Config}
    (hconfig : Config.ofToml text = .ok config)
    (hslack : config.listGrowthSlack.toNat + 2 ^ 20 < 2 ^ 29) {env : Environment}
    (henv : env.Reached config) {program : Program} (hsmall : program.extent.Small config) :
    (∃ u, compile config env program = .ok u) ∨
      ∃ faults, compile config env program = .error (.faults faults) := by
  have hheap := (Config.layout_of_check (Config.check_of_ofToml hconfig)).1
  have hbounded := Environment.bounded_of_reached hheap henv
  cases hextend : env.extend program with
  | error failure =>
    cases failure with
    | fault fault => exact .inr ⟨[fault], by simp only [compile_eq, hextend]; rfl⟩
    | overflow overflow => exact absurd hextend (hbounded.extend_ne_overflow hsmall overflow)
  | ok extended =>
    cases hfit : checkGlobalsFit extended config with
    | error failure =>
      cases failure with
      | fault fault => exact .inr ⟨[fault], by simp only [compile_eq, hextend, hfit]; rfl⟩
      | overflow overflow => exact absurd hfit (checkGlobalsFit_ne_overflow hheap overflow)
    | ok _ =>
      have hroom := (hbounded.extend hheap hsmall hextend hfit).room hheap hslack
      cases hcallables : program.callables with
      | error fault => exact .inr ⟨[fault], by simp only [compile_eq, hextend, hfit, hcallables]⟩
      | ok callables =>
        rw [compile_of_checked hextend hfit hcallables fun body hbody overflow =>
          bodies_ne_overflow hroom hsmall hbody overflow]
        split
        · exact .inl ⟨_, rfl⟩
        · exact .inr ⟨_, rfl⟩

namespace Bounds

def declaring : Program where
  inits := [{ name := "pair", ty := .cls "Pair", value := .none }]
  classes := [{ name := "Pair", fields := [
    { name := "left", ty := .string, value := .string "none" },
    { name := "right", ty := .number, value := .num 0 }] }]

def making : Program where
  stmts := [.assign (.single (.id "pair") (.cls "Pair")) (.construct (.cls "Pair") "Pair" []),
    .expr (.listOf .number [.ofLiteral (.num 1)])]

/-- The configuration with as many reserved places as leave room for addresses. -/
def widest : Config := { numberRepr := .bigint, listGrowthSlack := 535822335 }

theorem making_within_range : ∃ first second,
    Config.ofToml "number_repr = \"bigint\"\nlist_growth_slack = 535822335" = .ok widest ∧
      compile widest {} declaring = .ok first ∧ compile widest first.env making = .ok second := by
  have hconfig :
      Config.ofToml "number_repr = \"bigint\"\nlist_growth_slack = 535822335" = .ok widest := by
    decide +kernel
  have hslack : widest.listGrowthSlack.toNat + 2 ^ 20 < 2 ^ 29 := by decide
  have hdeclaring : declaring.extent.Small widest := ⟨by decide, by decide +kernel⟩
  have hmaking : making.extent.Small widest := ⟨by decide, by decide⟩
  obtain ⟨first, hfirst⟩ : ∃ first, compile widest {} declaring = .ok first := ⟨_, rfl⟩
  refine ⟨first, ?_⟩
  rcases compile_within_range hconfig hslack (.compiled .fresh hdeclaring hfirst) hmaking with
    ⟨second, hsecond⟩ | ⟨faults, hfaults⟩
  · exact ⟨second, hconfig, hfirst, hsecond⟩
  · cases hfirst
    cases hfaults

def one : Program where
  stmts := [.expr (.listOf .number [.ofLiteral (.num 1)])]

/-- A file may ask for so many reserved places that a list of one element has no bound. -/
theorem slack_overflows : ∃ config, Config.ofToml "list_growth_slack = 4294967295" = .ok config ∧
      Environment.Reached config {} ∧ one.extent.Small config ∧
      compile config {} one = .error (.overflow .add) := by
  exact ⟨{ listGrowthSlack := 4294967295 }, by decide +kernel, .fresh, ⟨by decide, by decide⟩, rfl⟩

end Bounds

end TypedWasm
