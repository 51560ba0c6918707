import TypedWasm.Proofs.Renamed.Bodies

/-!
# Locals by position

An encoded function has no names: its locals are an array that holds the arguments and then zeros. A
second interpreter runs listings whose locals go by index on such arrays. It does what the
interpreter by name does, even where locals repeat each other's names or that of a parameter, as
long as the parameters of a function differ.
-/

namespace TypedWasm

open Exec List Machine

mutual

/-- An instruction whose locals go by something else. -/
def InstrOf.relocate {ι κ φ : Type} (place : ι → κ) : InstrOf ι φ → InstrOf κ φ
  | .const value => .const value
  | .localGet name => .localGet (place name)
  | .localSet name => .localSet (place name)
  | .localTee name => .localTee (place name)
  | .load offset => .load offset
  | .store offset => .store offset
  | .numeric op => .numeric op
  | .eqz => .eqz
  | .memorySize => .memorySize
  | .memoryGrow => .memoryGrow
  | .call callee => .call callee
  | .drop => .drop
  | .ret => .ret
  | .unreachable => .unreachable
  | .nop => .nop
  | .block body => .block (relocateAll place body)
  | .loop body => .loop (relocateAll place body)
  | .cond yields thenBody elseBody =>
    .cond yields (relocateAll place thenBody) (relocateAll place elseBody)
  | .br depth => .br depth
  | .brIf depth => .brIf depth

def InstrOf.relocateAll {ι κ φ : Type} (place : ι → κ) : List (InstrOf ι φ) → List (InstrOf κ φ)
  | [] => []
  | first :: rest => first.relocate place :: relocateAll place rest

end

/-- The place of a local in the array. A name that is not declared stands past its end. -/
def Func.place (fn : Func) (name : String) : Nat :=
  (fn.indexOfLocal? name).getD (fn.params ++ fn.locals).length

/-! ### The interpreter by position -/

namespace Positional

abbrev Code := List (InstrOf Nat Callee)

structure State where
  machine : Machine
  locals : List Word
  stack : List Word := []

abbrev Result := Flow × State

/-- What is left of a state for code that touches no local. -/
def State.bare (s : State) : TypedWasm.State := ⟨s.machine, [], s.stack⟩

/-- A result of code that touches no local. -/
def beside (locals : List Word) (result : Exec.Result) : Result :=
  (result.1, ⟨result.2.machine, locals, result.2.stack⟩)

/-- A call of a function: its locals are the arguments, followed by zeros. -/
def call (run : Code → State → Result) (m : Machine) (fn : Func) (args : List Word) :
    Machine.Effect Word :=
  let (flow, s) := run (InstrOf.relocateAll fn.place fn.body)
    { machine := m, locals := args ++ replicate fn.locals.length 0 }
  afterBody (flow, s.bare)

def callNamed (run : Code → State → Result) (name : String) (s : State) : Result :=
  match s.machine.function? name with
  | none => (.trap (.unknownFunction name), s)
  | some fn =>
    match popArgs? s.stack fn.params.length with
    | none => (.trap .stackUnderflow, s)
    | some (args, rest) => beside s.locals (afterCall s.bare rest (call run s.machine fn args))

def leaveBody (atLabel : TypedWasm.State → TypedWasm.State) (result : Result) : Result :=
  beside result.2.locals (Exec.leaveBody atLabel (result.1, result.2.bare))

def write (index : Nat) (value : Word) (s : State) : Result :=
  if index < s.locals.length then (.next, { s with locals := s.locals.set index value })
  else (.trap (.unknownLocal (toString index)), s)

/-- One instruction. Those that touch no local and run no listing do what they do by name. -/
def step (run : Code → State → Result) (again : Nat → Code → State → Result)
    (instr : InstrOf Nat Callee) (s : State) : Result :=
  match instr, s.stack with
  | .localGet index, stack =>
    match s.locals[index]? with
    | some value => (.next, { s with stack := value :: stack })
    | none => (.trap (.unknownLocal (toString index)), s)
  | .localSet index, value :: rest => write index value { s with stack := rest }
  | .localTee index, value :: _ => write index value s
  | .call (.user name), _ => callNamed run name s
  | .call (.helper helper), _ => callNamed run helper.name s
  | .block body, stack => leaveBody (·.truncate stack.length) (run body s)
  | .loop body, stack => again stack.length body s
  | .cond _ thenBody elseBody, value :: rest =>
    leaveBody (·) (run (if value ≠ 0 then thenBody else elseBody) { s with stack := rest })
  | other, _ => beside s.locals
    (Exec.step (fun _ t => (.next, t)) (fun _ _ t => (.next, t)) (other.relocate toString) s.bare)

mutual

def run : (depth : Nat) → Code → State → Result
  | 0, _, s => (.trap .outOfFuel, s)
  | _ + 1, [], s => (.next, s)
  | depth + 1, instr :: rest, s =>
    if s.machine.fuel = 0 then (.trap .outOfFuel, s)
    else
      match step (run depth) (again depth) instr { s with machine := s.bare.burn.machine } with
      | (.next, s) => run depth rest s
      | other => other

def again : (depth : Nat) → (height : Nat) → Code → State → Result
  | 0, _, _, s => (.trap .outOfFuel, s)
  | depth + 1, height, body, s =>
    match run depth body s with
    | (.branch 0, s) => again depth height body { s with stack := (s.bare.truncate height).stack }
    | (.branch (label + 1), s) => (.branch label, s)
    | other => other

end

end Positional

/-- Calls a loaded function, with locals by position. -/
def Machine.callByPosition (m : Machine) (name : String) (args : List Word) : Effect Word :=
  match m.function? name with
  | none => (.error (.unknownFunction name), m)
  | some fn => Positional.call (Positional.run (2 * m.fuel + 1)) m fn args

/-! ### Declared locals -/

mutual

/-- Whether an instruction names only declared locals. -/
def InstrOf.within {φ : Type} (names : List String) : InstrOf String φ → Bool
  | .localGet name | .localSet name | .localTee name => names.contains name
  | .block body | .loop body => allWithin names body
  | .cond _ thenBody elseBody => allWithin names thenBody && allWithin names elseBody
  | _ => true

def InstrOf.allWithin {φ : Type} (names : List String) : List (InstrOf String φ) → Bool
  | [] => true
  | first :: rest => first.within names && allWithin names rest

end

/-- A function whose parameters differ and whose body names only its own locals. -/
structure Func.Declares (fn : Func) : Prop where
  params : fn.params.Nodup
  within : InstrOf.allWithin (fn.params ++ fn.locals) fn.body = true

theorem lookup_zip (names : List String) (words : List Word) (name : String) :
    (names.zip words).lookup name = (names.findIdx? (· == name)).bind (words[·]?) := by
  induction names generalizing words with
  | nil => rfl
  | cons first rest ih =>
    cases words with
    | nil => simp
    | cons word words =>
      rw [zip_cons_cons, lookup_cons_eq, findIdx?_cons]
      by_cases hname : name = first
      · simp [hname]
      · rw [if_neg hname, ih, if_neg (by simpa using Ne.symm hname), Option.bind_map]
        rfl

namespace Positional

variable {fn : Func} {frame : Frame} {locals : List Word} {name : String} {functions : List Func}

/-- A declared local stands at its place. -/
theorem place_eq (h : name ∈ fn.params ++ fn.locals) :
    fn.indexOfLocal? name = some (fn.place name) ∧ (fn.params ++ fn.locals)[fn.place name]? =
      some name := by
  obtain ⟨index, hindex⟩ : ∃ index, fn.indexOfLocal? name = some index := by
    rw [← Option.isSome_iff_exists, Func.indexOfLocal?, findIdx?_isSome, any_eq_true]
    exact ⟨name, h, beq_self_eq_true name⟩
  obtain ⟨hlt, hname, -⟩ := findIdx?_eq_some_iff_getElem.1 hindex
  rw [Func.place, hindex, Option.getD_some, getElem?_eq_getElem hlt, eq_of_beq hname]
  exact ⟨rfl, rfl⟩

/-- An array that holds the locals of a frame, each at its place. -/
structure Agrees (fn : Func) (frame : Frame) (locals : List Word) : Prop where
  length : locals.length = (fn.params ++ fn.locals).length
  get : ∀ name ∈ fn.params ++ fn.locals, frame.get? name = locals[fn.place name]?

theorem Agrees.lt (h : Agrees fn frame locals) (hname : name ∈ fn.params ++ fn.locals) :
    fn.place name < locals.length := h.length ▸ (List.getElem?_eq_some_iff.1 (place_eq hname).2).1

theorem Agrees.set (h : Agrees fn frame locals) (hname : name ∈ fn.params ++ fn.locals)
    (value : Word) : ∃ frame', frame.set? name value = some frame' ∧
      Agrees fn frame' (locals.set (fn.place name) value) := by
  have hlt := h.lt hname
  obtain ⟨frame', hset⟩ := Frame.exists_set? (by rw [h.get name hname]; simp [hlt]) value
  refine ⟨frame', hset, by rw [length_set, h.length], fun other hother => ?_⟩
  rw [Frame.get?_of_set? hset]
  split
  · next hsame => rw [hsame, getElem?_set_self hlt]
  · next hdiffers =>
    have hne : fn.place name ≠ fn.place other := fun he =>
      hdiffers (Option.some.inj ((place_eq hother).2.symm.trans (he ▸ (place_eq hname).2)))
    rw [getElem?_set_ne hne, h.get other hother]

/-- A call starts on an array that holds its frame: of equal names the first one has the place, so a
parameter stands before every local that repeats its name. -/
theorem agrees_ofCall {args : List Word} (hparams : fn.params.Nodup)
    (hargs : args.length = fn.params.length) :
    Agrees fn (Frame.ofCall fn args) (args ++ replicate fn.locals.length 0) := by
  have hzip : (fn.params ++ fn.locals).zip (args ++ replicate fn.locals.length 0) =
      fn.params.zip args ++ fn.locals.map fun name => (name, 0) := by
    rw [zip_append hargs.symm, ← map_const', ← map_id fn.locals, map_map, zip_map', map_map]
    rfl
  have hnames : ((fn.params.zip args).map (·.1)).Nodup := by
    rwa [map_fst_zip (Nat.le_of_eq hargs.symm)]
  refine ⟨by simp [hargs], fun name hname => ?_⟩
  rw [Frame.get?, Frame.ofCall, lookup_append, lookup_reverse_of_nodup hnames, ← lookup_append,
    ← hzip, lookup_zip, ← Func.indexOfLocal?, (place_eq hname).1, Option.bind_some]

/-- A result by position that agrees with one by name. -/
def Matches (fn : Func) (result : Exec.Result) (other : Result) : Prop :=
  ∃ locals, Agrees fn result.2.locals locals ∧ other = beside locals result

theorem Matches.leaveBody {result : Exec.Result} {other : Result}
    {atLabel : TypedWasm.State → TypedWasm.State} (h : Matches fn result other)
    (hlabel : ∀ m frame frame' stack, atLabel ⟨m, frame, stack⟩ =
      { atLabel ⟨m, frame', stack⟩ with locals := frame }) :
    Matches fn (Exec.leaveBody atLabel result) (leaveBody atLabel other) := by
  obtain ⟨flow, m, frame, stack⟩ := result
  obtain ⟨locals, hagrees, rfl⟩ := h
  rcases flow with _ | ⟨_ | depth⟩ | _ | _
  · exact ⟨locals, hagrees, rfl⟩
  · refine ⟨locals, ?_, ?_⟩
    · rw [Exec.leaveBody, hlabel m frame []]
      exact hagrees
    · simp only [Exec.leaveBody, hlabel m frame []]
      rfl
  all_goals exact ⟨locals, hagrees, rfl⟩

/-- Listings run alike by position and by name, in whatever function they stand. -/
def Alike (functions : List Func) (run : TypedWasm.Code → TypedWasm.State → Exec.Result)
    (run' : Code → State → Result) : Prop :=
  ∀ fn code (s : TypedWasm.State) locals, s.machine.functions = functions →
    InstrOf.allWithin (fn.params ++ fn.locals) code = true → Agrees fn s.locals locals →
    Matches fn (run code s) (run' (InstrOf.relocateAll fn.place code) ⟨s.machine, locals, s.stack⟩)

section Step

variable {run : TypedWasm.Code → TypedWasm.State → Exec.Result} {run' : Code → State → Result}
  {again : Nat → TypedWasm.Code → TypedWasm.State → Exec.Result}
  {again' : Nat → Code → State → Result}

variable (hfunctions : ∀ fn ∈ functions, fn.Declares) (hrun : Alike functions run run')

include hfunctions hrun

theorem call_alike {m : Machine} {fn : Func} {args : List Word} (hm : m.functions = functions)
    (hfn : fn ∈ functions) (hargs : args.length = fn.params.length) :
    call run' m fn args = Exec.call run m fn args := by
  obtain ⟨hparams, hwithin⟩ := hfunctions fn hfn
  obtain ⟨locals, -, hbody⟩ := hrun fn _ ⟨m, Frame.ofCall fn args, []⟩ _ hm hwithin
    (agrees_ofCall hparams hargs)
  rw [call, show run' _ ⟨m, _, []⟩ = _ from hbody, show Exec.call run m fn args =
    afterBody _ from rfl]
  rcases run fn.body ⟨m, Frame.ofCall fn args, []⟩ with
    ⟨_ | _ | _ | _, ⟨m', _, _ | _⟩⟩ <;> rfl

theorem callNamed_alike {s : TypedWasm.State} (hm : s.machine.functions = functions)
    (hagrees : Agrees fn s.locals locals) (name : String) : Matches fn (Exec.callNamed run name s)
      (callNamed run' name ⟨s.machine, locals, s.stack⟩) := by
  simp only [callNamed, Exec.callNamed]
  cases hcallee : s.machine.function? name with
  | none => exact ⟨locals, hagrees, rfl⟩
  | some callee =>
    dsimp only
    cases hargs : popArgs? s.stack callee.params.length with
    | none => exact ⟨locals, hagrees, rfl⟩
    | some popped =>
      obtain ⟨args, rest⟩ := popped
      have hlength : args.length = callee.params.length := by
        rw [popArgs?] at hargs
        split at hargs
        · cases hargs
        · cases hargs
          rw [length_reverse, length_take]
          omega
      dsimp only
      rw [call_alike hfunctions hrun hm (hm ▸ mem_of_find?_eq_some hcallee) hlength]
      rcases Exec.call run s.machine callee args with ⟨_ | _, m⟩ <;> exact ⟨locals, hagrees, rfl⟩

/-- One instruction, by its kind. -/
theorem step_alike (hagain : ∀ height, Alike functions (again height) (again' height))
    {instr : Instr} {s : TypedWasm.State} (hm : s.machine.functions = functions)
    (hwithin : instr.within (fn.params ++ fn.locals) = true) (hagrees : Agrees fn s.locals locals) :
    Matches fn (Exec.step run again instr s)
      (step run' again' (instr.relocate fn.place) ⟨s.machine, locals, s.stack⟩) := by
  obtain ⟨m, frame, stack⟩ := s
  cases instr with
  | localGet name =>
    have hname : name ∈ fn.params ++ fn.locals := by simpa [InstrOf.within] using hwithin
    simp only [Exec.step, InstrOf.relocate, step, hagrees.get name hname,
      getElem?_eq_getElem (hagrees.lt hname)]
    exact ⟨locals, hagrees, rfl⟩
  | localSet name | localTee name =>
    have hname : name ∈ fn.params ++ fn.locals := by simpa [InstrOf.within] using hwithin
    cases stack with
    | nil => exact ⟨locals, hagrees, rfl⟩
    | cons value rest =>
      obtain ⟨frame', hset, hagrees'⟩ := hagrees.set hname value
      simp only [Exec.step, InstrOf.relocate, step, write, hset, if_pos (hagrees.lt hname)]
      exact ⟨_, hagrees', rfl⟩
  | call target =>
    cases target with
    | user name => exact callNamed_alike hfunctions hrun hm hagrees name
    | helper helper => exact callNamed_alike hfunctions hrun hm hagrees helper.name
    | intrinsic intrinsic =>
      simp only [Exec.step, callee_intrinsic, callHost, InstrOf.relocate, step, State.bare]
      split
      · exact ⟨locals, hagrees, rfl⟩
      · next args rest _ =>
          rcases m.host intrinsic args with ⟨_ | _, m'⟩ <;> exact ⟨locals, hagrees, rfl⟩
  | block body => exact (hrun fn body _ locals hm hwithin hagrees).leaveBody fun _ _ _ _ => rfl
  | loop body => exact hagain _ fn body _ locals hm hwithin hagrees
  | cond yields thenBody elseBody =>
    rw [InstrOf.within, Bool.and_eq_true] at hwithin
    cases stack with
    | nil => exact ⟨locals, hagrees, rfl⟩
    | cons value rest =>
      simp only [Exec.step, InstrOf.relocate, step]
      refine Matches.leaveBody ?_ fun _ _ _ _ => rfl
      split
      · exact hrun fn thenBody ⟨m, frame, rest⟩ locals hm hwithin.1 hagrees
      · exact hrun fn elseBody ⟨m, frame, rest⟩ locals hm hwithin.2 hagrees
  | const | memorySize | ret | unreachable | nop | br => exact ⟨locals, hagrees, rfl⟩
  | eqz | drop | memoryGrow | brIf => cases stack <;> exact ⟨locals, hagrees, rfl⟩
  | load | store | numeric =>
    rcases stack with _ | ⟨_, _ | _⟩ <;> simp only [Exec.step, InstrOf.relocate, step,
      State.bare] <;>
      (try split) <;> exact ⟨locals, hagrees, rfl⟩

end Step

/-- **Runs by position** are runs by name, by induction on the depth. -/
theorem run_alike (hfunctions : ∀ fn ∈ functions, fn.Declares) (depth : Nat) :
    Alike functions (Exec.run depth) (run depth) ∧
      ∀ height, Alike functions (Exec.again depth height) (again depth height) := by
  induction depth with
  | zero =>
    exact ⟨fun _ _ _ locals _ _ h => ⟨locals, h, rfl⟩, fun _ _ _ _ locals _ _ h => ⟨locals, h, rfl⟩⟩
  | succ depth ih =>
    obtain ⟨hrun, hagain⟩ := ih
    constructor
    · intro fn code s locals hm hwithin hagrees
      cases code with
      | nil => exact ⟨locals, hagrees, rfl⟩
      | cons instr rest =>
        rw [InstrOf.allWithin, Bool.and_eq_true] at hwithin
        simp only [Exec.run, InstrOf.relocateAll, run]
        split
        · exact ⟨locals, hagrees, rfl⟩
        · have hkeeps := step_keeps (run_follows depth).1 (run_follows depth).2 instr s.burn
          obtain ⟨locals', hagrees', hstep⟩ :=
            step_alike hfunctions hrun hagain (s := s.burn) hm hwithin.1 hagrees
          have hburn : (State.bare ⟨s.machine, locals, s.stack⟩).burn.machine = s.burn.machine :=
            rfl
          rw [hburn, show s.stack = s.burn.stack from rfl, hstep]
          rcases hr : Exec.step (Exec.run depth) (Exec.again depth) instr s.burn with
            ⟨_ | _ | _ | _, t⟩
          · rw [hr] at hkeeps hagrees'
            exact hrun fn rest t locals' (hkeeps.functions.trans hm) hwithin.2 hagrees'
          all_goals
            rw [hr] at hagrees'
            exact ⟨locals', hagrees', rfl⟩
    · intro height fn body s locals hm hwithin hagrees
      have hkeeps := (run_follows depth).1 body s
      obtain ⟨locals', hagrees', hbody⟩ := hrun fn body s locals hm hwithin hagrees
      simp only [Exec.again, again, hbody]
      rcases hr : Exec.run depth body s with ⟨_ | ⟨_ | label⟩ | _ | _, t⟩ <;>
        rw [hr] at hkeeps hagrees'
      · exact ⟨locals', hagrees', rfl⟩
      · exact hagain height fn body (t.truncate height) locals' (hkeeps.functions.trans hm) hwithin
          hagrees'
      all_goals exact ⟨locals', hagrees', rfl⟩

end Positional

/-! ### Compiled units -/

theorem Renamed.within {names : List String} {known : String → Prop} {escapes : Prop} {labels : Nat}
    {code code' : Code} (h : Renamed (.declared names) known escapes labels code code') :
    InstrOf.allWithin names code = true := by
  induction h with
  | nil => rfl
  | @plain _ i _ _ hi _ ih =>
      cases i <;> simp_all [InstrOf.allWithin, InstrOf.within, InstrOf.isPlain]
  | @localGet _ name _ _ _ hname _ ih | @localSet _ name _ _ _ hname _ ih
  | @localTee _ name _ _ _ hname _ ih =>
    have hmem : name ∈ names := hname
    simpa [InstrOf.allWithin, InstrOf.within, ih] using hmem
  | call _ _ ih | ret _ _ ih | br _ _ ih | brIf _ _ ih | address _ _ ih => exact ih
  | block _ _ ih ih' | loop _ _ ih ih' => simp [InstrOf.allWithin, InstrOf.within, ih, ih']
  | cond _ _ _ ih ih' ih'' => simp [InstrOf.allWithin, InstrOf.within, ih, ih', ih'']

theorem Lowering.Shape.Renames.declares {fn : Func}
    (h : (Shape.declared (fn.params ++ fn.locals) none).Renames fn.body fn.body 0 1)
    (hparams : fn.params.Nodup) : fn.Declares :=
  ⟨hparams, (h.renamed 0).within⟩

theorem Helper.function_declares (slack : UInt32) (helper : Helper) :
    (helper.function slack).Declares := by
  refine ⟨?_, by cases helper <;> rfl⟩
  rw [params_function]
  cases helper <;> decide

theorem Compiled.declares {config : Config} {env : Environment} {program : Program}
    {u : CompiledUnit} (h : Compiled config env program u)
    (hparams : ∀ routine ∈ program.routines, (routine.1.parameters.map (·.name)).Nodup) :
    ∀ fn ∈ u.allFunctions, fn.Declares := by
  intro fn hfn
  rcases mem_append.1 hfn with hown | hhelper
  · obtain ⟨body, hbody, later, hrun, -⟩ := h.body_of_function hown
    refine (Lowering.Body.renames none hrun (by simp) (by simp [Lowering.Linked])).declares ?_
    obtain ⟨_, _, _, _, -, -, rfl, -⟩ := Lowering.Body.run_eq_ok_iff.1 hrun
    rcases mem_append.1 hbody with hroutine | htop
    · obtain ⟨routine, hmem, rfl⟩ := mem_map.1 hroutine
      exact hparams routine hmem
    · rw [mem_singleton.1 htop]
      exact nodup_nil
  · obtain ⟨helper, rfl, -⟩ := h.helpers fn hhelper
    exact helper.function_declares _

/-- **Execution by name is execution by position.** After a compiled unit is loaded, a call with a
word for every parameter ends alike both ways, with the same machine. -/
theorem call_eq_callByPosition {config : Config} {env : Environment} {program : Program}
    {u : CompiledUnit} {m : Machine} {name : String} {args : List Word}
    (hcompile : compile config env program = .ok u)
    (hparams : ∀ routine ∈ program.routines, (routine.1.parameters.map (·.name)).Nodup)
    (hloaded : ∀ fn ∈ m.functions, fn.Declares)
    (hargs : ∀ fn, (m.load u).function? name = some fn → args.length = fn.params.length) :
    (m.load u).callByPosition name args = (m.load u).call name args := by
  obtain ⟨extended, -, -, hcompiled⟩ := Compiled.of_compile hcompile
  have hfunctions : ∀ fn ∈ (m.load u).functions, fn.Declares := by
    intro fn hmem
    rcases mem_append.1 hmem with hnew | hold
    · exact hcompiled.declares hparams fn (mem_reverse.1 hnew)
    · exact hloaded fn hold
  rw [Machine.callByPosition, Machine.call]
  cases hfn : (m.load u).function? name with
  | none => rfl
  | some fn =>
    exact Positional.call_alike hfunctions (Positional.run_alike hfunctions _).1 rfl
      (mem_of_find?_eq_some hfn) (hargs fn hfn)

namespace Positional

/-- A function whose variables repeat the name of a parameter and each other's. -/
def repeating : Program where
  funs := [{
    name := "sum"
    parameters := [{ name := "x", ty := .number }, { name := "y", ty := .number }]
    inits := [{ name := "x", ty := .number, value := .num 5 },
      { name := "z", ty := .number, value := .num 1 },
        { name := "z", ty := .number, value := .num 20 }]
    body := [.ret (.binary .number .plus (.id .number "x")
      (.binary .number .plus (.id .number "y") (.id .number "z")))] }]

def idle : Machine := { memory := { pages := 1 }, fuel := 100 }

/-- Both ways the parameter is overwritten, and the second of the equal names counts last. -/
theorem repeating_sum : ∃ u, compile {} {} repeating = .ok u ∧
    (idle.load u).callByPosition "sum" [40, 2] = (idle.load u).call "sum" [40, 2] ∧
    ((idle.load u).callByPosition "sum" [40, 2]).1 = .ok 27 := by
  have hruns : (compile {} {} repeating).toOption.map (fun u =>
      (((idle.load u).call "sum" [40, 2]).1,
      ((idle.load u).function? "sum").map (·.params.length))) = some (.ok 27,
        some 2) := by decide +kernel
  cases hu : compile {} {} repeating with
  | error => simp [hu, Except.toOption] at hruns
  | ok u =>
    rw [hu] at hruns
    obtain ⟨hsum, hcount⟩ := Prod.mk.inj (Option.some.inj hruns)
    have hsame : (idle.load u).callByPosition "sum" [40, 2] = (idle.load u).call "sum" [40, 2] :=
      call_eq_callByPosition hu (by decide) (by simp [idle]) fun fn hfn => by
        rw [hfn] at hcount
        exact (Option.some.inj hcount).symm
    exact ⟨u, rfl, hsame, by rw [hsame]; exact hsum⟩

end Positional

end TypedWasm
