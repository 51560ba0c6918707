import TypedWasm.Proofs.Scalar.Statements

/-!
# Scalar functions and top levels

A body first gives its declared variables their initial values, then runs its statements. A call
starts on less fuel than its caller had, so what all calls show follows by induction on fuel.
-/

namespace TypedWasm.Scalar

open Environment Exec TypedWasm.Frame List Lower Lowering

variable {progress later : Progress} {code : Code} {func : Func} {args : List Word} {fuel : Nat}
  {functions : List Func} {m : Machine} {world : World} {fn : FunDef}

section Declarations

variable {context : Context} {frame : Frame} {inits : List VarInit} {init : VarInit} {word : Word}

section

variable (h : literalWord? init.value = some word) (rest : List VarInit) (world : World)
include h

theorem declareLocals_cons : declareLocals (init :: rest) world =
      declareLocals rest { world with locals := world.locals.put init.name word } := by
  rw [declareLocals, h]
  rfl

theorem declareGlobals_cons : declareGlobals (init :: rest) world =
      declareGlobals rest { world with globals := world.globals.put init.name word } := by
  rw [declareGlobals, h]
  rfl

end

theorem mem_names_put {store : Store} {name other : String} (word : Word)
    (h : other = name ∨ other ∈ store.map (·.1)) : other ∈ (store.put name word).map (·.1) := by
  rw [← lookup_isSome_iff_mem, Store.lookup_put]
  split
  · rfl
  · next hne => exact lookup_isSome_iff_mem.2 (h.resolve_left hne)

/-- The frame holds the declared locals, which are those there were and the new ones. -/
def DeclaresLocals (context : Context) (functions : List Func) (names : List String) (temps : Nat)
    (stack : List Word) (declared : List String) (world : World) (result : Result) : Prop :=
  ∃ m frame, result = (.next, ⟨m, frame, stack⟩) ∧
    Settled context.env functions world m ∧ Bound names temps world frame ∧
    ∀ name ∈ declared, name ∈ world.locals.map (·.1)

theorem localInits_shows (hnative : context.config.bigNumbers = false) {names : List String}
    {temps : Nat} (hscalar : ∀ init ∈ inits, init.value.isScalar = true)
    (hnames : ∀ init ∈ inits, init.name ∈ names)
    (hrun : (localInits inits).run (context.binding names) progress = (.ok code, later))
    (hsettled : Settled context.env functions world m) (hbound : Bound names temps world frame)
    (stack : List Word) : Shows context.env functions (fun _ => declareLocals inits world)
      (fun _ => DeclaresLocals context functions names temps stack
        (world.locals.map (·.1) ++ inits.map (·.name))) (exec code ⟨m, frame, stack⟩) := by
  induction inits generalizing world m frame progress code with
  | nil =>
    obtain ⟨rfl, -⟩ := pure_eq_ok_iff.1 hrun
    refine .value (.always fun _ => rfl) ⟨m, frame, rfl, hsettled, hbound, ?_⟩
    simp
  | cons init rest ih =>
    simp only [localInits, Lower.bind_eq_ok_iff, pure_eq_ok_iff] at hrun
    obtain ⟨valueCode, _, hvalue, restCode, _, hrest, rfl, rfl⟩ := hrun
    have hscope : (context.binding names).config.bigNumbers = false := hnative
    obtain ⟨word, hword, rfl⟩ := literal_code hscope (hscalar init mem_cons_self) hvalue
    obtain ⟨frame₁, hset, hbound₁⟩ := hbound.setLocal (hnames init mem_cons_self) word
    simp only [declareLocals_cons hword]
    refine .cons fun _ => .cons fun _ => ?_
    simp only [step, State.burn, State.push, hset, andThen]
    have hsettled₁ : Settled context.env functions
        { world with locals := world.locals.put init.name word } (spent (spent m)) :=
      (hsettled.refuel _).of_globals rfl rfl
    have hshows := ih (fun other hother => hscalar other (mem_cons_of_mem _ hother))
      (fun other hother => hnames other (mem_cons_of_mem _ hother)) hrest hsettled₁ hbound₁
    refine hshows.through (fun _ _ => rfl) ?_
    rintro _ world₂ ⟨m₂, frame₂, hresult, hsettled₂, hbound₂, hdeclared⟩
    refine ⟨m₂, frame₂, hresult, hsettled₂, hbound₂, fun name hname => hdeclared name ?_⟩
    rw [map_cons, mem_append, mem_cons] at hname
    rw [mem_append]
    rcases hname with hold | hnew | hlast
    · exact .inl (mem_names_put word (.inr hold))
    · exact .inl (mem_names_put word (.inl hnew))
    · exact .inr hlast

/-- Declaring the globals of a unit in order gives a store in the order of its layout. -/
theorem globalInits_shows (hnative : context.config.bigNumbers = false)
    (hplan : context.env.Planned) (hscalar : ∀ init ∈ inits, init.value.isScalar = true)
    (hrun : (globalInits inits).run (context.binding []) progress = (.ok code, later))
    {sofar done : Environment} (hnames : world.globals.map (·.1) = sofar.globals.map (·.1))
    (hdone : sofar.addGlobals (inits.map (·.name)) = .ok done)
    (hmirrors : Mirrors context.env functions world m) (frame : Frame) (stack : List Word) :
    Shows context.env functions (fun _ => declareGlobals inits world)
      (fun _ world' result => ∃ m', result = (.next, ⟨m', frame, stack⟩) ∧
        Mirrors context.env functions world' m' ∧ world'.locals = world.locals ∧
        world'.latest = world.latest ∧ world'.globals.map (·.1) = done.globals.map (·.1))
      (exec code ⟨m, frame, stack⟩) := by
  induction inits generalizing world m progress code sofar with
  | nil =>
    obtain ⟨rfl, -⟩ := pure_eq_ok_iff.1 hrun
    cases hdone
    exact .value (.always fun _ => rfl) ⟨m, rfl, hmirrors, rfl, rfl, hnames⟩
  | cons init rest ih =>
    simp only [globalInits, Lower.bind_eq_ok_iff, context_eq_ok_iff,
      ofResult_eq_ok_iff, pure_eq_ok_iff] at hrun
    obtain ⟨_, _, ⟨rfl, rfl⟩, address, _, ⟨haddress, rfl⟩, valueCode, _, hvalue, restCode, _, hrest,
      rfl, rfl⟩ := hrun
    have hscope : (context.binding []).config.bigNumbers = false := hnative
    obtain ⟨word, hword, rfl⟩ := literal_code hscope (hscalar init mem_cons_self) hvalue
    obtain ⟨between, hfirst, hlast⟩ := Failing.bind_eq_ok_iff.1 hdone
    have hbetween : (world.globals.put init.name word).map (·.1) = between.globals.map (·.1) := by
      rcases addGlobal_cases hfirst with ⟨hmem, rfl⟩ | ⟨hnew, hglobals, -⟩
      · rw [Store.names_put_of_mem (hnames ▸ hmem), hnames]
      · rw [Store.names_put_of_notMem (hnames ▸ hnew), hnames, hglobals, map_append]
        rfl
    have hmirrors₁ : Mirrors context.env functions world (spent (spent (spent m))) :=
      hmirrors.refuel _
    obtain ⟨m₂, hstore, hmirrors₂⟩ := hmirrors₁.write hplan haddress word
    simp only [declareGlobals_cons hword]
    refine .cons fun _ => .cons fun _ => .cons fun _ => ?_
    simp only [spent] at hstore
    simp only [step, State.burn, State.push, hstore, andThen]
    refine (ih (fun other hother => hscalar other (mem_cons_of_mem _ hother)) hrest hbetween
      hlast hmirrors₂).through (fun _ _ => rfl) ?_
    rintro _ world₃ ⟨m₃, hresult, hmirrors₃, hlocals, hlatest, hglobals⟩
    exact ⟨m₃, hresult, hmirrors₃, hlocals, hlatest, hglobals⟩

end Declarations

/-- A body ended with a word on top of its stack. -/
def Answers (env : Environment) (functions : List Func) (word : Word) (world : World)
    (result : Result) : Prop :=
  ∃ flow s rest, result = (flow, s) ∧ (∀ reason, flow ≠ .trap reason) ∧ s.stack = word :: rest ∧
    Settled env functions world s.machine

theorem call_of_shows {env : Environment} {eval : Nat → Option (Except Trap Word × World)}
    (h : Shows env functions eval (Answers env functions)
      (exec func.body { machine := m, locals := Frame.ofCall func args })) :
    (Exec.call exec m func args).1 = .error .outOfFuel ∨
      ∃ world, Ends eval ((Exec.call exec m func args).1, world) ∧
        Settled env functions world (Exec.call exec m func args).2 := by
  rw [Exec.call]
  generalize exec func.body { machine := m, locals := Frame.ofCall func args } = result at h
  obtain ⟨flow, s⟩ := result
  cases h with
  | cut h =>
    obtain rfl : flow = .trap .outOfFuel := h
    exact .inl rfl
  | @trap reason world h hends hsettled =>
    obtain rfl : flow = .trap reason := h
    exact .inr ⟨world, hends, hsettled⟩
  | @value word world hends hanswers =>
    obtain ⟨_, _, rest, ⟨rfl, rfl⟩, hflow, hstack, hsettled⟩ := hanswers
    refine .inr ⟨world, ?_⟩
    cases flow with
    | trap reason => exact absurd rfl (hflow reason)
    | next | branch | ret =>
      simp only [hstack]
      exact ⟨hends, hsettled⟩

section Bodies

variable {program : Program} {context : Context}

/-- A function that the interpreter covers. -/
structure Covered (program : Program) (context : Context) (fn : FunDef) : Prop where
  scalar : fn.isScalar = true
  plain : ∀ name ∈ fn.identifiers, Dollarless name
  params : (fn.parameters.map (·.name)).Nodup
  passes : Passes program.arityOf context (Stmt.allCallSites fn.body)

namespace Covered

variable (h : Covered program context fn)

include h

theorem plain_bound : ∀ name ∈ boundNames fn, Dollarless name := by
  intro name hname
  refine h.plain name (mem_cons_of_mem _ ?_)
  exact mem_append_left _ hname

theorem bound_ofCall (hparams : func.params = fn.parameters.map (·.name))
    (hlocals : func.locals = fn.inits.map (·.name) ++ [scratchLocal] ++ progress.tempNames)
    (hargs : args.length = fn.parameters.length) (world : World) : Bound (boundNames fn)
      progress.temps { world with locals := (fn.parameters.map (·.name)).zip args, latest := 0 }
      (Frame.ofCall func args) := by
  have hlength : args.length = func.params.length := by rw [hparams, length_map, hargs]
  have hscratch : scratchLocal ∉ func.params := by
    intro hmem
    rw [hparams] at hmem
    exact not_dollarless_scratch (h.plain_bound _ (mem_append_left _ hmem))
  refine ⟨h.plain_bound, ?_, ?_, ?_, ?_, ?_⟩
  · intro name hname
    obtain ⟨entry, hentry, rfl⟩ := mem_map.1 hname
    exact mem_append_left _ (of_mem_zip hentry).1
  · intro name word hword
    exact get?_ofCall_param hlength (hparams ▸ h.params) (hparams ▸ hword)
  · intro name hname
    refine get?_ofCall_isSome hlength ?_
    rw [hparams, hlocals]
    rcases mem_append.1 hname with hparam | hinit
    · exact mem_append_left _ hparam
    · exact mem_append_right _ (mem_append_left _ (mem_append_left _ hinit))
  · exact get?_ofCall_local hscratch (by rw [hlocals]; simp) args
  · intro index hindex
    refine get?_ofCall_isSome hlength (mem_append_right _ ?_)
    rw [hlocals]
    exact mem_append_right _ (mem_map_of_mem (mem_range.2 hindex))

end Covered

theorem statements_answer {b : Body} {last : Code} (word : World → Word)
    {eval : Nat → Eval Completion} (hcode : Acts b fuel code eval)
    (hlast : ∀ world m frame, b.Running world m frame →
      Shows b.context.env b.functions (fun _ => some (.ok (word world), world))
        (fun found => Leaves b frame [found]) (exec last { machine := m, locals := frame }))
    {frame : Frame} (hrunning : b.Running world m frame) (hfuel : m.fuel ≤ fuel) :
    Shows b.context.env b.functions (fun bound => (do
        let completion ← eval bound
        return completion.word (word (← Eval.get)) : Eval Word) world)
      (Answers b.context.env b.functions)
      (exec (code ++ last) { machine := m, locals := frame }) := by
  rw [exec_append]
  refine (hcode world m frame [] hrunning hfuel).bind (fun _ h => andThen_of_trap h _) ?_
  intro completion world₁ hcompleted
  cases completion with
  | next =>
    obtain ⟨frame₁, m₁, hresult, hrunning₁⟩ := hcompleted
    rw [hresult]
    refine (hlast world₁ m₁ frame₁ hrunning₁).through (fun _ _ => rfl) ?_
    rintro found world₂ ⟨m₂, hresult₂, hrunning₂⟩
    exact ⟨.next, _, [], hresult₂, nofun, rfl, hrunning₂.settled⟩
  | returned found =>
    obtain ⟨s, rest, hresult, hstack, hsettled⟩ := hcompleted
    rw [hresult]
    exact .value (.always fun _ => rfl) ⟨.ret, s, rest, rfl, nofun, hstack, hsettled⟩

/-- The statements of a function, run on its own locals. -/
def bodyOf (program : Program) (bound : Nat) (fn : FunDef) : Eval Word := do
  declareLocals fn.inits
  return (← block (invoke program bound) bound fn.body).word 0

theorem invoke_succ (hdistinct : (program.funs.map (·.name)).Nodup) (hfn : fn ∈ program.funs)
    (bound : Nat) (args : List Word) : invoke program (bound + 1) fn.name args =
      activate ((fn.parameters.map (·.name)).zip args) (bodyOf program bound fn) := by
  rw [invoke, find?_key_of_mem hdistinct hfn]
  rfl

theorem activate_of {α : Type} {locals : Store} {body : Eval α} {caller : World}
    {result : Except Trap α} (h : body { caller with locals, latest := 0 } = some (result, world)) :
    activate locals body caller =
      some (result, { world with locals := caller.locals, latest := caller.latest }) := by
  simp only [activate, h, Option.map_some]

theorem function_answers (hloaded : Loaded program context functions)
    (hcovered : Covered program context fn) (hcalls : CallsShow program context.env functions fuel)
    (hrun : (Lowering.function fn fn.name).run context {} = (.ok func, later))
    (hargs : args.length = fn.parameters.length) (hsettled : Settled context.env functions world m)
    (hfuel : m.fuel ≤ fuel) : Shows context.env functions (fun bound => bodyOf program bound fn
        { world with locals := (fn.parameters.map (·.name)).zip args, latest := 0 })
      (Answers context.env functions)
      (exec func.body { machine := m, locals := Frame.ofCall func args }) := by
  obtain ⟨start, first, code, second, hstart, hcode, hfunc, -⟩ := Lowering.Body.run_eq_ok_iff.1 hrun
  have hparams : func.params = fn.parameters.map (·.name) := hfunc ▸ rfl
  have hlocals : func.locals = fn.inits.map (·.name) ++ [scratchLocal] ++ second.tempNames :=
    hfunc ▸ rfl
  have hbody : func.body = start ++ (code ++ [.const 0]) := hfunc ▸ append_assoc _ _ _
  obtain ⟨hinits, hstmts⟩ : (∀ init ∈ fn.inits, init.value.isScalar = true) ∧
      Stmt.allScalar fn.body = true := by
    simpa [FunDef.isScalar] using hcovered.scalar
  have hbound := hcovered.bound_ofCall hparams hlocals hargs world
  have hdeclared : ∀ init ∈ fn.inits, init.name ∈ boundNames fn := fun init hinit =>
    mem_append_right _ (mem_map_of_mem hinit)
  have hsettled₀ : Settled context.env functions
      { world with locals := (fn.parameters.map (·.name)).zip args, latest := 0 } m :=
    hsettled.of_globals rfl rfl
  rw [hbody, exec_append]
  refine (localInits_shows hloaded.native hinits hdeclared hstart hsettled₀ hbound []).bind
    (fun _ h => andThen_of_trap h _) ?_
  rintro _ world₁ ⟨m₁, frame₁, hresult, hsettled₁, hbound₁, hnames⟩
  have hle : m₁.fuel ≤ m.fuel := fuel_le_of_exec hresult
  let b : Body := ⟨context, functions, boundNames fn, second.temps⟩
  have hrunning : b.Running world₁ m₁ frame₁ := by
    refine ⟨hsettled₁, hbound₁, fun name hname => hnames name ?_⟩
    rwa [map_fst_zip (by rw [length_map, hargs])]
  have hacts : Acts b fuel code fun bound => block (invoke program bound) bound fn.body :=
    block_acts hloaded hcalls fn.body hstmts
      (fun name hname => hcovered.plain name (mem_cons_of_mem _ (mem_append_right _ hname)))
      hcovered.passes hcode (Nat.le_refl _)
  rw [hresult]
  refine statements_answer (fun _ => 0) hacts ?_ hrunning (by omega)
  intro world₂ m₂ frame₂ hrunning₂
  exact .atom 0 hrunning₂ (fun _ => rfl) rfl

section

variable (hloaded : Loaded program context functions)
  (hcovered : ∀ fn ∈ program.funs, Covered program context fn)
include hloaded hcovered

theorem callsShow_succ (h : CallsShow program context.env functions fuel) :
    CallsShow program context.env functions (fuel + 1) := by
  intro fn hfn func hfind args world m hargs hfuel hsettled
  obtain ⟨func', later, hrun, hfind'⟩ := hloaded.lowered fn hfn
  obtain rfl : func' = func := Option.some.inj (hfind'.symm.trans hfind)
  have hanswers := function_answers hloaded (hcovered fn hfn) h hrun hargs hsettled
    (Nat.le_of_lt_succ hfuel)
  rcases call_of_shows hanswers with hcut | ⟨world', ⟨least, hleast⟩, hsettled'⟩
  · exact .inl hcut
  · refine .inr ⟨{ world' with locals := world.locals, latest := world.latest },
      .of_succ ⟨least, fun bound hbound => ?_⟩, hsettled'.of_globals rfl rfl, rfl, rfl⟩
    dsimp only
    rw [invoke_succ hloaded.distinct hfn]
    exact activate_of (hleast bound hbound)

/-- **Calls.** Whatever the fuel, a call ends as the interpreter says. -/
theorem calls_show (fuel : Nat) : CallsShow program context.env functions fuel := by
  induction fuel with
  | zero => exact fun _ _ _ _ _ _ _ _ hfuel => absurd hfuel (Nat.not_lt_zero _)
  | succ fuel ih => exact callsShow_succ hloaded hcovered ih

/-- The top level ends as the interpreter says, from a machine that has printed nothing. -/
theorem topLevel_answers (hinits : ∀ init ∈ program.inits, init.value.isScalar = true)
    (hstmts : Stmt.allScalar program.stmts = true)
    (hnames : ∀ name ∈ Stmt.allIdentifiers program.stmts, Dollarless name)
    (hpasses : Passes program.arityOf context (Stmt.allCallSites program.stmts))
    (hextend : ({} : Environment).extend program = .ok context.env) {main : Func}
    (hrun : (Lowering.topLevel program.inits program.stmts).run context {} = (.ok main, later))
    (hmirrors : Mirrors context.env functions {} m) :
    Shows context.env functions (evaluate program) (Answers context.env functions)
      (exec main.body { machine := m, locals := Frame.ofCall main [] }) := by
  obtain ⟨start, first, code, second, hstart, hcode, hmain, -⟩ := Lowering.Body.run_eq_ok_iff.1 hrun
  have hlocals : main.locals = [scratchLocal] ++ second.tempNames := hmain ▸ rfl
  have hparams : main.params = [] := hmain ▸ rfl
  have hbody : main.body = start ++ (code ++ [.localGet scratchLocal]) := hmain ▸ append_assoc _ _ _
  obtain ⟨added, hadded, hglobals, -⟩ := exists_addGlobals_of_extend hextend
  have hscratch : (Frame.ofCall main []).get? scratchLocal = some 0 :=
    get?_ofCall_local (by rw [hparams]; exact not_mem_nil) (by rw [hlocals]; simp) []
  have htemps : ∀ index < second.temps, ((Frame.ofCall main []).get? (tempName index)).isSome := by
    intro index hindex
    refine get?_ofCall_isSome (by rw [hparams]; rfl) (mem_append_right _ ?_)
    rw [hlocals]
    exact mem_append_right _ (mem_map_of_mem (mem_range.2 hindex))
  rw [hbody, exec_append]
  refine (globalInits_shows hloaded.native hloaded.planned hinits hstart rfl hadded hmirrors
    (Frame.ofCall main []) []).bind (fun _ h => andThen_of_trap h _) ?_
  rintro _ world₁ ⟨m₁, hresult, hmirrors₁, hworld, hlatest, hdeclared⟩
  let b : Body := ⟨context, functions, [], second.temps⟩
  have hrunning : b.Running world₁ m₁ (Frame.ofCall main []) := by
    refine ⟨⟨hmirrors₁, hdeclared.trans (by rw [hglobals])⟩, ⟨nofun, ?_, ?_, nofun, ?_, htemps⟩,
      nofun⟩
    · rw [hworld]
      exact nofun
    · rw [hworld]
      exact nofun
    · rw [hlatest]
      exact hscratch
  have hacts : Acts b m.fuel code fun bound => block (invoke program bound) bound program.stmts :=
    block_acts hloaded (calls_show hloaded hcovered _) program.stmts hstmts hnames hpasses hcode
      (Nat.le_refl _)
  rw [hresult]
  refine statements_answer (·.latest) hacts ?_ hrunning (fuel_le_of_exec hresult)
  intro world₂ m₂ frame₂ hrunning₂
  refine .atom world₂.latest hrunning₂ (fun _ => rfl) ?_
  simp only [step, hrunning₂.bound.latest, State.push]

end

end Bodies

end TypedWasm.Scalar
