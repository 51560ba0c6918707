import TypedWasm.Proofs.Planning

/-!
# Bodies apart from each other

A body is lowered from its own text and the headings of its unit: the names of globals, functions
and methods, and the fields of classes. So a unit fails exactly when one of its bodies does, and
reports the fault of each of them.
-/

namespace TypedWasm

open Environment List

variable {program other : Program} {body : Lowering.Body} {fault : Fault} {index : Nat}

/-- What other bodies see of a class: its name, its fields and the names of its methods. -/
def ClassDef.heading (cls : ClassDef) : String × List VarInit × List String :=
  (cls.name, cls.fields, cls.methods.map (·.name))

/-- Units that differ at most inside their bodies: in the parameters, initial values and statements
of functions, methods and the top level. -/
structure Program.SameHeadings (program other : Program) : Prop where
  globals : other.inits.map (·.name) = program.inits.map (·.name)
  functions : other.funs.map (·.name) = program.funs.map (·.name)
  classes : other.classes.map ClassDef.heading = program.classes.map ClassDef.heading

namespace Environment

theorem addClass_heading {cls other : ClassDef} (h : other.heading = cls.heading)
    (env : Environment) : env.addClass other = env.addClass cls := by
  obtain ⟨hname, hfields, hmethods⟩ :
      other.name = cls.name ∧ other.fields = cls.fields ∧
        other.methods.map (·.name) = cls.methods.map (·.name) := by
    simpa [ClassDef.heading] using h
  simp only [addClass, ClassLayout.sameFields, ClassLayout.ofClass, hname, hfields, hmethods]
  rfl

theorem addClasses_headings {classes others : List ClassDef}
    (h : others.map ClassDef.heading = classes.map ClassDef.heading) (env : Environment) :
    env.addClasses others = env.addClasses classes := by
  induction classes generalizing others env with
  | nil =>
    obtain rfl : others = [] := map_eq_nil_iff.1 h
    rfl
  | cons cls rest ih =>
    obtain ⟨other, others, rfl, hother, hrest⟩ := map_eq_cons_iff.1 h
    rw [addClasses, addClasses, addClass_heading hother]
    cases env.addClass cls with
    | error => rfl
    | ok between => exact ih hrest between

end Environment

namespace Program.SameHeadings

variable {program other : Program}

section

variable (h : program.SameHeadings other)
include h

theorem extend (env : Environment) : env.extend other = env.extend program := by
  rw [Environment.extend, Environment.extend, h.globals]
  cases env.leave.addGlobals (program.inits.map (·.name)) with
  | error => rfl
  | ok between =>
    exact congrArg (Except.mapError Failure.fault) (addClasses_headings h.classes between)

theorem methodNames : other.methodNames = program.methodNames := by
  have hheadings : ∀ unit : Program, unit.methodNames =
      (unit.classes.map ClassDef.heading).flatMap fun heading =>
        heading.2.2.map (mangled heading.1) := by
    intro unit
    simp [Program.methodNames, ClassDef.heading, flatMap_map, Function.comp_def]
  rw [hheadings, hheadings, h.classes]

theorem callables : other.callables = program.callables := by
  rw [Program.callables, Program.callables, h.functions, h.methodNames]

theorem context (config : Config) (env : Environment) :
    other.context config env = program.context config env := by
  rw [Program.context, Program.context, h.functions, h.methodNames]

theorem length_routines : other.routines.length = program.routines.length := by
  have hnames : other.routines.map (·.2) = program.routines.map (·.2) := by
    rw [other.routine_names, program.routine_names, h.functions, h.methodNames]
  simpa using congrArg List.length hnames

end

end Program.SameHeadings

theorem Program.SameHeadings.lowered_getElem? (h : program.SameHeadings other)
    (hsame : other.bodies[index]? = program.bodies[index]?) (config : Config) (env : Environment) :
    (other.lowered config env)[index]? = (program.lowered config env)[index]? := by
  rw [Program.lowered, Program.lowered, other.lowerBodies_bodies, program.lowerBodies_bodies,
    getElem?_map, getElem?_map, hsame, h.context]

namespace LoweredBody

variable {body : LoweredBody}

theorem fault?_eq_some_iff : body.fault? = some fault ↔ body.1 = .error (.fault fault) := by
  obtain ⟨_ | _, progress⟩ := body
  · next failure => cases failure <;> simp [fault?]
  · simp [fault?]

theorem overflow?_eq_some_iff {overflow : Overflow} :
    body.overflow? = some overflow ↔ body.1 = .error (.overflow overflow) := by
  obtain ⟨_ | _, progress⟩ := body
  · next failure => cases failure <;> simp [overflow?]
  · simp [overflow?]

/-- Bodies without an overflow are collected, or else the fault of each that failed is reported. -/
theorem collect_of_checked {bodies : List LoweredBody}
    (hchecked : bodies.filterMap overflow? = []) :
    collect bodies =
      if bodies.filterMap fault? = [] then .ok (bodies.filterMap (·.1.toOption))
      else .error (.faults (bodies.filterMap fault?)) := by
  rw [collect, hchecked]
  cases hfaults : bodies.filterMap fault? with
  | nil => rfl
  | cons fault rest => rfl

end LoweredBody

theorem Environment.locals_of_extend {env extended : Environment}
    (h : env.extend program = .ok extended) : extended.locals = [] := by
  obtain ⟨between, hglobals, hclasses⟩ := extend_eq_ok_iff.1 h
  obtain ⟨-, -, hlocals⟩ := addGlobals_grows hglobals
  obtain ⟨-, -, hlocals'⟩ := addClasses_grows hclasses
  rw [hlocals', hlocals]
  rfl

theorem Environment.leave_of_extend {env extended : Environment}
    (h : env.extend program = .ok extended) : extended.leave = extended := by
  rw [leave, ← locals_of_extend h]

section Units

variable {config : Config} {env extended : Environment} {program : Program}
  {callables : List String}

/-- What a body comes to when it is lowered alone: the function, or the failure. -/
def outcomeAlone (config : Config) (env : Environment) (callables : List String)
    (body : Lowering.Body) : Except Failure Func :=
  (lowerBody { config, env, callables } body).1.1

/-- The fault a body ends in when it is lowered alone. -/
def faultAlone (config : Config) (env : Environment) (callables : List String)
    (body : Lowering.Body) : Option Fault :=
  (lowerBody { config, env, callables } body).1.fault?

theorem faultAlone_eq_some_iff : faultAlone config env callables body = some fault ↔
      outcomeAlone config env callables body = .error (.fault fault) :=
  LoweredBody.fault?_eq_some_iff

theorem Program.lowered_of_callables (hcallables : program.callables = .ok callables)
    (config : Config) (env : Environment) : program.lowered config env =
      program.bodies.map fun body => (lowerBody { config, env, callables } body).1 := by
  obtain ⟨-, hnames⟩ := Program.callables_eq_ok_iff.1 hcallables
  rw [Program.lowered, Program.context, hnames, program.lowerBodies_bodies]

/-- A unit whose declarations fit and whose offsets fit is compiled, or else the fault of each body
that failed is reported. -/
theorem compile_of_checked (hextend : env.extend program = .ok extended)
    (hfit : checkGlobalsFit extended config = .ok ())
    (hcallables : program.callables = .ok callables)
    (hchecked : ∀ body ∈ program.bodies, ∀ overflow,
      outcomeAlone config extended callables body ≠ .error (.overflow overflow)) :
    compile config env program =
      if program.bodies.filterMap (faultAlone config extended callables) = [] then
        .ok (assemble config extended.leave (program.lowered config extended)
          ((program.lowered config extended).filterMap (·.1.toOption)))
      else .error (.faults (program.bodies.filterMap (faultAlone config extended callables))) := by
  have hlowered := Program.lowered_of_callables hcallables config extended
  have hoverflow : (program.lowered config extended).filterMap LoweredBody.overflow? = [] := by
    rw [hlowered, filterMap_map, filterMap_eq_nil_iff]
    intro body hbody
    refine Option.eq_none_iff_forall_ne_some.2 fun overflow hfound => ?_
    exact hchecked body hbody overflow (LoweredBody.overflow?_eq_some_iff.1 hfound)
  have hfaults : (program.lowered config extended).filterMap LoweredBody.fault? =
      program.bodies.filterMap (faultAlone config extended callables) := by
    rw [hlowered, filterMap_map]
    rfl
  simp only [compile_eq, hextend, hfit, hcallables]
  rw [LoweredBody.collect_of_checked hoverflow, hfaults]
  split <;> rfl

/-- The functions of a compiled unit are what its bodies come to alone, and no name stays bound. -/
theorem functions_of_compile (hextend : env.extend program = .ok extended)
    (hcallables : program.callables = .ok callables) {u : CompiledUnit}
    (hcompile : compile config env program = .ok u) : (u.functions ++ [u.main]).map Except.ok =
        program.bodies.map (outcomeAlone config extended callables) ∧
      u.env = extended ∧ u.env.hasLocals = false := by
  obtain ⟨extended', functions, hextend', -, -, hfunctions, rfl⟩ := compile_eq_ok_iff.1 hcompile
  obtain rfl : extended = extended' := Except.ok.inj (hextend.symm.trans hextend')
  have hnonempty : functions ≠ [] := by
    rintro rfl
    rw [program.lowered_eq] at hfunctions
    simp at hfunctions
  have henv := leave_of_extend hextend
  refine ⟨?_, henv, ?_⟩
  · rw [assemble_functions _ _ _ hnonempty, ← hfunctions,
      Program.lowered_of_callables hcallables config extended, map_map]
    rfl
  · show extended.leave.hasLocals = false
    rfl

/-- **Bodies are compiled apart from each other, and all their faults are reported.** A unit whose
declarations fit, and in which no offset overflows, fails exactly when some body fails alone; then
the faults are those of the failing bodies, in the order of the bodies. Otherwise the functions are
what the bodies come to alone, and no name stays bound. All bodies share one environment: names left
in it by another body make no difference, a body leaves none there, also when it fails, and what
stands inside the other bodies of the unit makes no difference. -/
theorem compile_isolates_bodies (hextend : env.extend program = .ok extended)
    (hfit : checkGlobalsFit extended config = .ok ())
    (hcallables : program.callables = .ok callables)
    (hchecked : ∀ body ∈ program.bodies, ∀ overflow,
      outcomeAlone config extended callables body ≠ .error (.overflow overflow)) :
    ((∃ failure, compile config env program = .error failure) ↔ ∃ body ∈ program.bodies, ∃ fault,
        outcomeAlone config extended callables body = .error (.fault fault)) ∧
    (∀ failure, compile config env program = .error failure →
      failure = .faults (program.bodies.filterMap (faultAlone config extended callables))) ∧
    (∀ u, compile config env program = .ok u → (u.functions ++ [u.main]).map Except.ok =
          program.bodies.map (outcomeAlone config extended callables) ∧
        u.env = extended ∧ u.env.hasLocals = false) ∧
    (∀ names, ∀ body ∈ program.bodies,
      lowerBody { config, env := extended.enter names, callables } body =
          lowerBody { config, env := extended, callables } body ∧
        (lowerBody { config, env := extended, callables } body).2 = extended) ∧
    lowerBodies { config, env := extended, callables } program.bodies =
      (program.bodies.map fun body => (lowerBody { config, env := extended, callables } body).1,
        extended) ∧
    ∀ other, program.SameHeadings other →
      env.extend other = .ok extended ∧ other.callables = .ok callables ∧
      (∀ index, index < program.routines.length →
        other.routines[index]? = program.routines[index]? →
        (other.lowered config extended)[index]? = (program.lowered config extended)[index]?) ∧
      (other.inits = program.inits → other.stmts = program.stmts →
        (other.lowered config extended)[program.routines.length]? =
          (program.lowered config extended)[program.routines.length]?) := by
  have hcompile := compile_of_checked hextend hfit hcallables hchecked
  have hleave := leave_of_extend hextend
  refine ⟨?_, ?_, fun u hu => functions_of_compile hextend hcallables hu,
    fun names body _ => ?_, (program.lowerBodies_bodies _).trans (by rw [hleave]),
    fun other hother => ⟨?_, ?_, ?_, ?_⟩⟩
  · rw [hcompile]
    constructor
    · rintro ⟨failure, hfailure⟩
      split at hfailure
      · cases hfailure
      · next hsome =>
        obtain ⟨fault, hfault⟩ := exists_mem_of_ne_nil _ hsome
        obtain ⟨body, hbody, hfound⟩ := mem_filterMap.1 hfault
        exact ⟨body, hbody, fault, faultAlone_eq_some_iff.1 hfound⟩
    · rintro ⟨body, hbody, fault, hfault⟩
      have hmem : fault ∈ program.bodies.filterMap (faultAlone config extended callables) :=
        mem_filterMap.2 ⟨body, hbody, faultAlone_eq_some_iff.2 hfault⟩
      rw [if_neg (ne_nil_of_mem hmem)]
      exact ⟨_, rfl⟩
  · intro failure hfailure
    rw [hcompile] at hfailure
    split at hfailure
    · cases hfailure
    · cases hfailure
      rfl
  · obtain ⟨hsame, hleft⟩ := body.lower_binding { config, env := extended, callables } names {}
    exact ⟨hsame, hleft.trans hleave⟩
  · rw [hother.extend, hextend]
  · rw [hother.callables, hcallables]
  · intro index hindex hsame
    refine hother.lowered_getElem? ?_ config extended
    have hindex' : index < other.routines.length := hother.length_routines ▸ hindex
    rw [Program.bodies, Program.bodies, getElem?_append_left (by rwa [length_map]),
      getElem?_append_left (by rwa [length_map]), getElem?_map, getElem?_map, hsame]
  · intro hinits hstmts
    refine hother.lowered_getElem? ?_ config extended
    simp [Program.bodies, ← hother.length_routines, hinits, hstmts]

end Units

/-- A unit in which a function and the top level name variables that only another body declares. -/
def Isolation.strays : Program :=
  let returning (name parameter value : String) : FunDef :=
    { name, parameters := [{ name := parameter, ty := .number }],
      body := [.ret (.id .number value)] }
  { funs := [returning "f" "x" "y", returning "g" "y" "y"], stmts := [.expr (.id .number "x")] }

theorem Isolation.strays_reported : Program.callables strays = .ok ["f", "g"] ∧
        compile {} {} strays = .error (.faults [.unresolvedGlobal "y", .unresolvedGlobal "x"]) := by
  have hchecked : ∀ body ∈ strays.bodies, ∀ overflow,
      outcomeAlone {} {} ["f", "g"] body ≠ .error (.overflow overflow) := by
    have hnone : ∀ outcome ∈ strays.bodies.map (outcomeAlone {} {} ["f", "g"]), ∀ overflow,
        outcome ≠ .error (.overflow overflow) := by
      rintro _ (_ | ⟨_, _ | ⟨_, _ | ⟨_, ⟨⟩⟩⟩⟩) overflow h <;> cases h
    exact fun body hbody => hnone _ (mem_map_of_mem hbody)
  obtain ⟨hfails, hreports, -⟩ :=
    @compile_isolates_bodies {} {} {} strays ["f", "g"] rfl rfl rfl hchecked
  obtain ⟨failure, hfailure⟩ := hfails.2 ⟨_, .head _, .unresolvedGlobal "y", rfl⟩
  refine ⟨rfl, hfailure.trans (congrArg Except.error ?_)⟩
  exact hreports failure hfailure

end TypedWasm
