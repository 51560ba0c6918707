import TypedWasm.Proofs.Frames
import TypedWasm.Proofs.Unchecked.Addresses

/-!
# Runs under other names

A listing runs as the same listing does under other names for its locals, on frames that correspond,
with more words further down on the stack, more fuel, and functions loaded from elsewhere, as long
as those it calls run alike. The second listing may also compute element addresses in place, as long
as the first run does not end at an index check.
-/

namespace TypedWasm

open Exec List Machine Nat

variable {i : Instr} {name name' : String} {known : String → Prop} {labels fuel : Nat}
  {functions : List Func} {below : List Word} {result : Result} {locals : Frame} {s : State}
  {atLabel : State → State} {next : State → Result} {mode : Mode} {rest' rest : Code}

/-! ### Modes -/

/-- Whether a call ended for a reason other than a lack of fuel or of words on the stack. -/
def Trap.concludes : Except Trap Word → Bool
  | .error .outOfFuel | .error .stackUnderflow => false
  | _ => true

/-- How closely a second run follows a first one. -/
structure Mode where
  /-- Whether the second run may compute element addresses in place. -/
  inlines : Prop
  /-- The traps that the second run repeats. -/
  settles : Trap → Bool
  /-- What the second run may have for fuel where the first one has some. -/
  fuels : Nat → Nat → Prop
  outOfFuel : settles .outOfFuel = false
  spends : ∀ {fuel fuel' : Nat}, fuels fuel fuel' → 0 < fuel → 0 < fuel' ∧
    fuels (fuel - 1) (fuel' - 1)
  settled : inlines → ∀ trap, settles trap = true → trap.isSettled = true
  more : inlines → ∀ fuel fuel' : Nat, fuels fuel fuel' ↔ fuel ≤ fuel'

namespace Mode

/-- Nothing but names changes. -/
def named : Mode where
  inlines := False
  settles trap := Trap.concludes (.error trap)
  fuels := (· ≤ ·)
  outOfFuel := rfl
  spends _ _ := by omega
  settled h := h.elim
  more h := h.elim

/-- Nothing changes but that there is further fuel. -/
def refilled (extra : Nat) : Mode where
  inlines := False
  settles trap := trap != .outOfFuel
  fuels fuel fuel' := fuel' = fuel + extra
  outOfFuel := rfl
  spends _ _ := by omega
  settled h := h.elim
  more h := h.elim

/-- Index checks are left out. -/
def unchecked : Mode where
  inlines := True
  settles := Trap.isSettled
  fuels := (· ≤ ·)
  outOfFuel := rfl
  spends _ _ := by omega
  settled _ _ h := h
  more _ _ _ := .rfl

variable (mode : Mode)

/-- Whether a listing ends in a way that is repeated. -/
def concludes : Flow → Bool
  | .trap trap => mode.settles trap
  | _ => true

/-- Whether a call ends in a way that is repeated. -/
def returns : Except Trap Word → Bool
  | .error trap => mode.settles trap
  | .ok _ => true

theorem unchecked_returns (outcome : Except Trap Word) :
    unchecked.returns outcome = Trap.settles outcome := by
  cases outcome <;> rfl

variable {mode}

theorem not_outOfFuel (h : mode.concludes (.trap .outOfFuel) = true) : False :=
  Bool.false_ne_true (mode.outOfFuel.symm.trans h)

theorem isSettled (hinlines : mode.inlines) {flow : Flow} (h : mode.concludes flow = true) :
    flow.isSettled = true := by
  cases flow with
  | trap trap => exact mode.settled hinlines trap h
  | _ => rfl

end Mode

/-! ### Renamings -/

/-- Frames that correspond, and the pairs of names under which one may be read and written as the
other is. Where a local is missing, it is missing in both under one name. -/
structure Renaming where
  mode : Mode
  frames : Frame → Frame → Prop
  reads : String → String → Prop
  writes : String → String → Prop
  get : ∀ {frame frame' : Frame} {name name' : String}, frames frame frame' → reads name name' →
    (∃ word, frame.get? name = some word ∧ frame'.get? name' = some word) ∨
      (name' = name ∧ frame.get? name = none ∧ frame'.get? name = none)
  set : ∀ {frame frame' : Frame} {name name' : String}, frames frame frame' → writes name name' →
    ∀ word, (∃ next next', frame.set? name word = some next ∧ frame'.set? name' word = some next' ∧
        frames next next') ∨
      (name' = name ∧ frame.set? name word = none ∧ frame'.set? name word = none)

variable {r : Renaming}

/-- Every local keeps its name. -/
def Renaming.same (mode : Mode) : Renaming where
  mode := mode
  frames := Eq
  reads := Eq
  writes := Eq
  get := by
    rintro frame _ name _ rfl rfl
    cases h : frame.get? name with
    | none => exact .inr ⟨rfl, rfl, rfl⟩
    | some word => exact .inl ⟨word, rfl, rfl⟩
  set := by
    rintro frame _ name _ rfl rfl word
    cases h : frame.set? name word with
    | none => exact .inr ⟨rfl, rfl, rfl⟩
    | some next => exact .inl ⟨next, next, rfl, rfl, rfl⟩

/-- Whether an instruction is atomic, touches no local and does not jump. -/
def InstrOf.isPlain {ι κ : Type} : InstrOf ι κ → Bool
  | .const _ | .load _ | .store _ | .numeric _ | .eqz | .memorySize | .memoryGrow | .drop
  | .unreachable | .nop => true
  | _ => false

/-- Whether a call names a known function. The host is always there. -/
def Callee.Within (known : String → Prop) : Callee → Prop
  | .user name => known name
  | .helper called => known called.name
  | .intrinsic _ => True

/-- A listing and the same one under other names. All calls of both are known. Unless the listing
`escapes`, it does not return and its jumps end at the given number of labels. -/
inductive Renamed (r : Renaming) (known : String → Prop) (escapes : Prop) :
    Nat → Code → Code → Prop
  | nil {labels : Nat} : Renamed r known escapes labels [] []
  | plain {labels : Nat} {i : Instr} {rest rest' : Code} (hi : i.isPlain = true)
      (hrest : Renamed r known escapes labels rest rest') :
      Renamed r known escapes labels (i :: rest) (i :: rest')
  | localGet {labels : Nat} {name name' : String} {rest rest' : Code}
      (hname : r.reads name name') (hrest : Renamed r known escapes labels rest rest') :
      Renamed r known escapes labels (.localGet name :: rest) (.localGet name' :: rest')
  | localSet {labels : Nat} {name name' : String} {rest rest' : Code}
      (hname : r.writes name name') (hrest : Renamed r known escapes labels rest rest') :
      Renamed r known escapes labels (.localSet name :: rest) (.localSet name' :: rest')
  | localTee {labels : Nat} {name name' : String} {rest rest' : Code}
      (hname : r.writes name name') (hrest : Renamed r known escapes labels rest rest') :
      Renamed r known escapes labels (.localTee name :: rest) (.localTee name' :: rest')
  | call {labels : Nat} {callee : Callee} {rest rest' : Code} (hcallee : callee.Within known)
      (hrest : Renamed r known escapes labels rest rest') :
      Renamed r known escapes labels (.call callee :: rest) (.call callee :: rest')
  | ret {labels : Nat} {rest rest' : Code} (h : escapes)
      (hrest : Renamed r known escapes labels rest rest') :
      Renamed r known escapes labels (.ret :: rest) (.ret :: rest')
  | br {labels : Nat} {depth : UInt32} {rest rest' : Code}
      (h : escapes ∨ depth.toNat < labels) (hrest : Renamed r known escapes labels rest rest') :
      Renamed r known escapes labels (.br depth :: rest) (.br depth :: rest')
  | brIf {labels : Nat} {depth : UInt32} {rest rest' : Code}
      (h : escapes ∨ depth.toNat < labels) (hrest : Renamed r known escapes labels rest rest') :
      Renamed r known escapes labels (.brIf depth :: rest) (.brIf depth :: rest')
  | block {labels : Nat} {body body' rest rest' : Code}
      (hbody : Renamed r known escapes (labels + 1) body body')
      (hrest : Renamed r known escapes labels rest rest') :
      Renamed r known escapes labels (.block body :: rest) (.block body' :: rest')
  | loop {labels : Nat} {body body' rest rest' : Code}
      (hbody : Renamed r known escapes (labels + 1) body body')
      (hrest : Renamed r known escapes labels rest rest') :
      Renamed r known escapes labels (.loop body :: rest) (.loop body' :: rest')
  | cond {labels : Nat} {yields : Bool} {thenBody thenBody' elseBody elseBody' : Code}
      {rest rest' : Code} (hthen : Renamed r known escapes (labels + 1) thenBody thenBody')
      (helse : Renamed r known escapes (labels + 1) elseBody elseBody')
      (hrest : Renamed r known escapes labels rest rest') :
      Renamed r known escapes labels (.cond yields thenBody elseBody :: rest)
        (.cond yields thenBody' elseBody' :: rest')
  | address {labels : Nat} {rest rest' : Code} (h : r.mode.inlines)
      (hrest : Renamed r known escapes labels rest rest') :
      Renamed r known escapes labels (.callHelper .listElementAddress :: rest)
        (Unchecked.inlineAddress ++ rest')

namespace Renamed

variable {escapes : Prop}

theorem append {first first' second second' : Code}
    (h : Renamed r known escapes labels first first')
    (h' : Renamed r known escapes labels second second') :
    Renamed r known escapes labels (first ++ second) (first' ++ second') := by
  induction h with
  | nil => exact h'
  | plain hi _ ih => exact .plain hi (ih h')
  | localGet hname _ ih => exact .localGet hname (ih h')
  | localSet hname _ ih => exact .localSet hname (ih h')
  | localTee hname _ ih => exact .localTee hname (ih h')
  | call hcallee _ ih => exact .call hcallee (ih h')
  | ret hescapes _ ih => exact .ret hescapes (ih h')
  | br hdepth _ ih => exact .br hdepth (ih h')
  | brIf hdepth _ ih => exact .brIf hdepth (ih h')
  | block hbody _ _ ih => exact .block hbody (ih h')
  | loop hbody _ _ ih => exact .loop hbody (ih h')
  | cond hthen helse _ _ _ ih => exact .cond hthen helse (ih h')
  | address hinlines _ ih =>
    rw [append_assoc]
    exact .address hinlines (ih h')

theorem refl_of : (code : Code) →
    (∀ callee ∈ InstrOf.allCallees code, callee.Within known) →
    ∀ labels, Renamed (.same mode) known True labels code code
  | [], _, _ => .nil
  | i :: rest, h, labels => by
    have hfirst : ∀ callee ∈ i.callees, callee.Within known := fun callee hmem =>
      h callee (mem_append_left _ hmem)
    have hrest : Renamed (.same mode) known True labels rest rest :=
      refl_of rest (fun callee hmem =>
      h callee (mem_append_right _ hmem)) labels
    cases i with
    | call callee => exact .call (hfirst callee mem_cons_self) hrest
    | block body => exact .block (refl_of body hfirst _) hrest
    | loop body => exact .loop (refl_of body hfirst _) hrest
    | cond yields thenBody elseBody =>
      refine .cond (refl_of thenBody (fun callee hmem => ?_) _)
        (refl_of elseBody (fun callee hmem => ?_) _) hrest
      · exact hfirst callee (mem_append_left _ hmem)
      · exact hfirst callee (mem_append_right _ hmem)
    | localGet => exact .localGet rfl hrest
    | localSet => exact .localSet rfl hrest
    | localTee => exact .localTee rfl hrest
    | ret => exact .ret trivial hrest
    | br => exact .br (.inl trivial) hrest
    | brIf => exact .brIf (.inl trivial) hrest
    | _ => exact .plain rfl hrest

end Renamed

/-! ### Results -/

/-- The state on other functions, with other fuel and other locals, and with more words further down
on the stack. -/
def State.moved (s : State) (functions : List Func) (fuel : Nat) (locals : Frame)
    (below : List Word) : State :=
  ⟨s.machine.equip functions fuel, locals, s.stack ++ below⟩

/-- Fuel and locals for a second run that correspond to those of a state. Words further down would
keep a second run from lacking words on the stack, so there are none where that is to be
repeated. -/
structure Paired (r : Renaming) (below : List Word) (s : State) (fuel : Nat) (locals : Frame) :
    Prop where
  fuel : r.mode.fuels s.machine.fuel fuel
  locals : r.frames s.locals locals
  below : r.mode.settles .stackUnderflow = true → below = []

/-- `other` ends as `result` does, if the mode has that repeated: with corresponding fuel and
locals, and the words further down as they were. -/
def Repeats (r : Renaming) (functions : List Func) (below : List Word) (result other : Result) :
    Prop :=
  r.mode.concludes result.1 = true → ∃ fuel locals, Paired r below result.2 fuel locals ∧
    other = (result.1, result.2.moved functions fuel locals below)

/-- The same for calls. -/
def RepeatsCall (mode : Mode) (functions : List Func) (effect other : Machine.Effect Word) : Prop :=
  mode.returns effect.1 = true →
    ∃ fuel, mode.fuels effect.2.fuel fuel ∧ other = (effect.1, effect.2.equip functions fuel)

namespace Repeats

variable {other : Result}

theorem andThen {next' : State → Result} (h : Repeats r functions below result other)
    (hnext : ∀ t fuel locals, result = (.next, t) → Paired r below t fuel locals →
      Repeats r functions below (next t) (next' (t.moved functions fuel locals below))) :
    Repeats r functions below (andThen result next) (Exec.andThen other next') := by
  obtain ⟨flow, t⟩ := result
  cases flow with
  | next =>
    obtain ⟨fuel, locals, hpaired, rfl⟩ := h rfl
    exact hnext t fuel locals rfl hpaired
  | branch | ret | trap =>
    intro hconclusive
    obtain ⟨fuel, locals, hpaired, rfl⟩ := h hconclusive
    exact ⟨fuel, locals, hpaired, rfl⟩

theorem truncate_append (stack below : List Word) (height : Nat) :
    (stack ++ below).drop ((stack ++ below).length - (height + below.length)) =
      stack.drop (stack.length - height) ++ below := by
  have hcount : (stack ++ below).length - (height + below.length) = stack.length - height := by
    rw [length_append]
    omega
  rw [hcount, drop_append_of_le_length (sub_le _ _)]

theorem truncate {height : Nat} (t : State) :
    (t.moved functions fuel locals below).truncate (height + below.length) =
      (t.truncate height).moved functions fuel locals below :=
  congrArg (State.mk _ _) (truncate_append t.stack below height)

theorem leaveBody {atLabel' : State → State} (h : Repeats r functions below result other)
    (hlabel : ∀ t fuel locals, atLabel' (t.moved functions fuel locals below) =
      (atLabel t).moved functions fuel locals below)
    (hkeeps : ∀ t fuel locals, Paired r below t fuel locals →
      Paired r below (atLabel t) fuel locals) :
    Repeats r functions below (leaveBody atLabel result) (Exec.leaveBody atLabel' other) := by
  obtain ⟨flow, t⟩ := result
  intro hconclusive
  have hbefore : r.mode.concludes flow = true := by
    cases flow with
    | trap => exact hconclusive
    | _ => rfl
  obtain ⟨fuel, locals, hpaired, rfl⟩ := h hbefore
  rcases flow with _ | ⟨_ | depth⟩ | _ | _
  · exact ⟨fuel, locals, hpaired, rfl⟩
  · exact ⟨fuel, locals, hkeeps t fuel locals hpaired, Prod.ext rfl (hlabel t fuel locals)⟩
  all_goals exact ⟨fuel, locals, hpaired, rfl⟩

theorem cons {i' : Instr} (h : Paired r below s fuel locals)
    (hstep : 0 < s.machine.fuel → Paired r below s.burn (fuel - 1) locals →
      Repeats r functions below (step exec looped i s.burn)
        (step exec looped i' (s.burn.moved functions (fuel - 1) locals below)))
    (hrest : 0 < s.machine.fuel → ∀ t left locals, step exec looped i s.burn = (.next, t) →
      Paired r below t left locals →
      Repeats r functions below (exec rest t) (exec rest' (t.moved functions left locals below))) :
    Repeats r functions below (exec (i :: rest) s)
      (exec (i' :: rest') (s.moved functions fuel locals below)) := by
  rw [exec_cons, exec_cons]
  by_cases hzero : s.machine.fuel = 0
  · rw [if_pos hzero]
    exact fun hconclusive => (Mode.not_outOfFuel hconclusive).elim
  · have hlt : 0 < s.machine.fuel := Nat.pos_of_ne_zero hzero
    obtain ⟨hpos, hleft⟩ := r.mode.spends h.fuel hlt
    have hsome : (s.moved functions fuel locals below).machine.fuel ≠ 0 := Nat.ne_of_gt hpos
    rw [if_neg hzero, if_neg hsome]
    exact (hstep hlt ⟨hleft, h.locals, h.below⟩).andThen (hrest hlt)

end Repeats

theorem RepeatsCall.afterCall {rest : List Word} {effect other : Machine.Effect Word}
    (h : RepeatsCall r.mode functions effect other) (hpaired : Paired r below s fuel locals) :
    Repeats r functions below (afterCall s rest effect)
      (afterCall (s.moved functions fuel locals below) (rest ++ below) other) := by
  obtain ⟨outcome, m⟩ := effect
  intro hconclusive
  cases outcome with
  | ok word =>
    obtain ⟨left, hleft, rfl⟩ := h rfl
    exact ⟨left, locals, ⟨hleft, hpaired.locals, hpaired.below⟩, rfl⟩
  | error trap =>
    obtain ⟨left, hleft, rfl⟩ := h hconclusive
    exact ⟨left, locals, ⟨hleft, hpaired.locals, hpaired.below⟩, rfl⟩

/-! ### Single instructions -/

theorem popArgs?_append {stack args rest : List Word} {count : Nat}
    (h : popArgs? stack count = some (args, rest)) (below : List Word) :
    popArgs? (stack ++ below) count = some (args, rest ++ below) := by
  rw [popArgs?] at h
  split at h
  · cases h
  · next hlength =>
    cases h
    have hle : count ≤ stack.length := by omega
    rw [popArgs?, if_neg (by rw [length_append]; omega), take_append_of_le_length hle,
      drop_append_of_le_length hle]

theorem InstrOf.isAtomic_of_isPlain {ι κ : Type} {i : InstrOf ι κ} (h : i.isPlain = true) :
    i.isAtomic = true := by
  cases i <;> first | rfl | cases h

section Steps

variable {run run' : Code → State → Result} {again again' : Nat → Code → State → Result}
  (h : Paired r below s fuel locals)
include h

/-- A step that names nothing is the same in both runs. -/
theorem step_plain (hi : i.isPlain = true) : Repeats r functions below (step run again i s)
      (step run' again' i (s.moved functions fuel locals below)) := by
  obtain ⟨hfuel, hlocals, hbelow⟩ := h
  have hkept : (step run again i s).2.machine.fuel = s.machine.fuel := congrArg (·.2.machine.fuel)
    (step_atomic run run again again (InstrOf.isAtomic_of_isPlain hi) s s.machine.functions _)
  intro hconclusive
  suffices hsame : r.frames (step run again i s).2.locals locals ∧
      step run' again' i (s.moved functions
      fuel locals below) = ((step run again i s).1,
        (step run again i s).2.moved functions fuel locals below)
    from ⟨fuel, locals, ⟨hkept ▸ hfuel, hsame.1, hbelow⟩, hsame.2⟩
  obtain ⟨m, frame, stack⟩ := s
  cases i with
  | const | memorySize | unreachable | nop => exact ⟨hlocals, rfl⟩
  | store offset =>
    rcases stack with _ | ⟨value, _ | ⟨address, rest⟩⟩
    · exact ⟨hlocals, by rw [hbelow hconclusive]; rfl⟩
    · exact ⟨hlocals, by rw [hbelow hconclusive]; rfl⟩
    · simp only [step, State.moved, cons_append, storeWord_equip]
      cases m.storeWord address offset value <;> exact ⟨hlocals, rfl⟩
  | eqz | drop | load | numeric | memoryGrow =>
    rcases stack with _ | ⟨_, _ | _⟩
    all_goals first
      | exact ⟨hlocals, by rw [hbelow hconclusive]; rfl⟩
      | simp only [step, State.moved, cons_append, nil_append, loadWord_equip, grow_equip]
        (try split) <;> exact ⟨hlocals, by trivial⟩
  | _ => cases hi

theorem step_localGet (hname : r.reads name name') :
    Repeats r functions below (step run again (.localGet name) s)
      (step run' again' (.localGet name') (s.moved functions fuel locals below)) := by
  intro _
  refine ⟨fuel, locals, ?_⟩
  rcases r.get h.locals hname with ⟨word, hget, hget'⟩ | ⟨rfl, hget, hget'⟩
  · simp only [step, State.moved, hget, hget']
    exact ⟨⟨h.fuel, h.locals, h.below⟩, rfl⟩
  · simp only [step, State.moved, hget, hget']
    exact ⟨h, trivial⟩

theorem step_writes (hname : r.writes name name') :
    Repeats r functions below (step run again (.localSet name) s)
        (step run' again' (.localSet name') (s.moved functions fuel locals below)) ∧
      Repeats r functions below (step run again (.localTee name) s)
        (step run' again' (.localTee name') (s.moved functions fuel locals below)) := by
  obtain ⟨hfuel, hlocals, hbelow⟩ := h
  obtain ⟨m, frame, _ | ⟨word, rest⟩⟩ := s
  · constructor <;> exact fun hconclusive =>
      ⟨fuel, locals, ⟨hfuel, hlocals, hbelow⟩, by rw [hbelow hconclusive]; rfl⟩
  · rcases r.set hlocals hname
      word with ⟨next, next', hset, hset', hframes⟩ | ⟨rfl, hset, hset'⟩ <;>
      simp only [step, State.moved, cons_append, hset, hset']
    · constructor <;> exact fun _ => ⟨fuel, next', ⟨hfuel, hframes, hbelow⟩, rfl⟩
    · constructor <;> exact fun _ => ⟨fuel, locals, ⟨hfuel, hlocals, hbelow⟩, rfl⟩

theorem callHost_repeats (intrinsic : Intrinsic) : Repeats r functions below (callHost intrinsic s)
      (callHost intrinsic (s.moved functions fuel locals below)) := by
  rw [callHost]
  split
  · next hargs =>
    intro hconclusive
    obtain rfl := h.below hconclusive
    rw [callHost, show (s.moved functions fuel locals []).stack = s.stack from append_nil _, hargs]
    exact ⟨fuel, locals, h, rfl⟩
  · next args rest hargs =>
    have hargs' := popArgs?_append hargs below
    rw [callHost, show (s.moved functions fuel locals below).stack = s.stack ++ below from rfl,
      hargs']
    have hkept : (s.machine.host intrinsic args).2.fuel = s.machine.fuel := congrArg (·.2.fuel)
      (host_equip s.machine s.machine.functions s.machine.fuel intrinsic args)
    have hhost : RepeatsCall r.mode functions (s.machine.host intrinsic args)
        ((s.moved functions fuel locals below).machine.host intrinsic args) := fun _ =>
      ⟨fuel, hkept ▸ h.fuel, host_equip _ _ _ _ _⟩
    exact hhost.afterCall h

end Steps

/-! ### Runs -/

/-- Functions with the same locals and listings that run alike. -/
structure Counterpart (mode : Mode) (known : String → Prop) (fn fn' : Func) : Prop where
  params : fn'.params = fn.params
  locals : fn'.locals = fn.locals
  body : Renamed (.same mode) known True 0 fn.body fn'.body

/-- Tables whose functions under known names run alike. -/
structure LinkedBy (mode : Mode) (known : String → Prop) (functions functions' : List Func) :
    Prop where
  found : ∀ name fn, known name → functions.find? (·.name == name) = some fn →
    ∃ fn', functions'.find? (·.name == name) = some fn' ∧ Counterpart mode known fn fn'
  missing : ¬ mode.inlines → ∀ name, known name → functions.find? (·.name == name) = none →
    functions'.find? (·.name == name) = none
  address : mode.inlines → ∀ fn,
    functions.find? (·.name == Helper.listElementAddress.name) = some fn →
    fn = HelperBody.listElementAddress

/-- Tables that hold the same functions under known names, which call known functions only. -/
theorem LinkedBy.of_same {functions' : List Func} (hmode : ¬ mode.inlines) (hsame : ∀ name,
      known name → functions'.find? (·.name == name) = functions.find? (·.name == name))
    (hclosed : ∀ name fn, known name → functions.find? (·.name == name) = some fn →
      ∀ callee ∈ InstrOf.allCallees fn.body, callee.Within known) :
    LinkedBy mode known functions functions' where
  found name fn hname hfn := ⟨fn, (hsame name hname).trans hfn, rfl, rfl,
    .refl_of fn.body (hclosed name fn hname hfn) 0⟩
  missing _ name hname hfn := (hsame name hname).trans hfn
  address h := absurd h hmode

namespace Renamed

/-- Renamed listings run alike from less than the given fuel. -/
def ListingsRepeat (mode : Mode) (known : String → Prop) (functions functions' : List Func)
    (bound : Nat) : Prop :=
  ∀ r : Renaming, r.mode = mode →
    ∀ (escapes : Prop) (labels : Nat) (code code' : Code) (below : List Word)
    (s : State) (fuel : Nat) (locals : Frame), Renamed r known escapes labels code code' →
    s.machine.functions = functions → s.machine.fuel < bound → Paired r below s fuel locals →
    Repeats r functions' below (exec code s) (exec code' (s.moved functions' fuel locals below))

/-- Loops over renamed listings run alike from less than the given fuel. -/
def LoopsRepeat (mode : Mode) (known : String → Prop) (functions functions' : List Func)
    (bound : Nat) : Prop :=
  ∀ r : Renaming, r.mode = mode → ∀ (escapes : Prop) (labels height : Nat) (body body' : Code)
    (below : List Word) (s : State) (fuel : Nat) (locals : Frame),
    Renamed r known escapes labels body body' → s.machine.functions = functions →
    s.machine.fuel < bound → Paired r below s fuel locals →
    Repeats r functions' below (looped height body s)
      (looped (height + below.length) body' (s.moved functions' fuel locals below))

variable {functions' : List Func} {bound : Nat}

/-- A call of the counterpart repeats the call, since both bodies run alike. -/
theorem call_repeats (hruns : ListingsRepeat mode known functions functions' bound) {m : Machine}
    {fn fn' : Func} (hfn : Counterpart mode known fn fn') (args : List Word)
    (hm : m.functions = functions) (hbound : m.fuel < bound) (hfuel : mode.fuels m.fuel fuel) :
    RepeatsCall mode functions' (Exec.call exec m fn args)
      (Exec.call exec (m.equip functions' fuel) fn' args) := by
  have hframe : Frame.ofCall fn' args = Frame.ofCall fn args := by
    rw [Frame.ofCall, Frame.ofCall, hfn.params, hfn.locals]
  have hbody := hruns (.same mode) rfl True 0 fn.body fn'.body []
    { machine := m, locals := Frame.ofCall fn args } fuel (Frame.ofCall fn args) hfn.body hm hbound
    ⟨hfuel, rfl, fun _ => rfl⟩
  intro hreturns
  rw [Exec.call] at hreturns
  rcases hr : exec fn.body { machine := m, locals := Frame.ofCall fn args } with ⟨flow, t⟩
  rw [hr] at hbody hreturns
  have hconclusive : mode.concludes flow = true := by
    cases flow with
    | trap trap => exact hreturns
    | _ => rfl
  obtain ⟨left, locals, ⟨hleft, -, -⟩, hother⟩ := hbody hconclusive
  refine ⟨left, ?_⟩
  have hstate : State.moved { machine := m, locals := Frame.ofCall fn args } functions' fuel
      (Frame.ofCall fn args) [] =
      { machine := m.equip functions' fuel, locals := Frame.ofCall fn args } := rfl
  rw [hstate] at hother
  rw [Exec.call, Exec.call, hframe, hr, hother]
  obtain ⟨tm, frame, stack⟩ := t
  cases flow <;> cases stack <;> exact ⟨hleft, rfl⟩

section Steps

variable (hlink : LinkedBy r.mode known functions functions')
  (hruns : ListingsRepeat r.mode known functions functions' bound)
include hlink hruns

theorem callNamed_repeats (hname : known name) (hs : s.machine.functions = functions)
    (hbound : s.machine.fuel < bound) (hpaired : Paired r below s fuel locals) :
    Repeats r functions' below (callNamed exec name s)
      (callNamed exec name (s.moved functions' fuel locals below)) := by
  have hother : (s.moved functions' fuel locals below).machine.function? name =
      functions'.find? (·.name == name) := rfl
  rw [callNamed, callNamed, hother]
  cases hfn : s.machine.function? name with
  | none =>
    intro hconclusive
    rw [Machine.function?, hs] at hfn
    have hmode : ¬ r.mode.inlines := by
      intro hinlines
      cases Mode.isSettled hinlines hconclusive
    rw [hlink.missing hmode name hname hfn]
    exact ⟨fuel, locals, hpaired, rfl⟩
  | some fn =>
    rw [Machine.function?, hs] at hfn
    obtain ⟨fn', hfind, hcounterpart⟩ := hlink.found name fn hname hfn
    rw [hfind]
    dsimp only
    rw [hcounterpart.params]
    cases hargs : popArgs? s.stack fn.params.length with
    | none =>
      intro hconclusive
      obtain rfl := hpaired.below hconclusive
      rw [show (s.moved functions' fuel locals []).stack = s.stack from append_nil _, hargs]
      exact ⟨fuel, locals, hpaired, rfl⟩
    | some taken =>
      obtain ⟨args, rest⟩ := taken
      rw [show (s.moved functions' fuel locals below).stack = s.stack ++ below from rfl,
        popArgs?_append hargs below]
      exact (call_repeats hruns hcounterpart args hs hbound hpaired.fuel).afterCall hpaired

theorem callee_repeats {callee : Callee} (hcallee : callee.Within known)
    (hs : s.machine.functions = functions) (hbound : s.machine.fuel < bound)
    (hpaired : Paired r below s fuel locals) :
    Repeats r functions' below (step exec looped (.call callee) s)
      (step exec looped (.call callee) (s.moved functions' fuel locals below)) := by
  cases callee with
  | user name => exact callNamed_repeats hlink hruns hcallee hs hbound hpaired
  | helper helper => exact callNamed_repeats hlink hruns hcallee hs hbound hpaired
  | intrinsic intrinsic => exact callHost_repeats hpaired intrinsic

theorem address_repeats (hinlines : r.mode.inlines) {escapes : Prop}
    (hrest : Renamed r known escapes labels rest rest') (hs : s.machine.functions = functions)
    (hbound : s.machine.fuel ≤ bound) (hpaired : Paired r below s fuel locals) :
    Repeats r functions' below (exec (.callHelper .listElementAddress :: rest) s)
      (exec (Unchecked.inlineAddress ++ rest') (s.moved functions' fuel locals below)) := by
  have hmore := r.mode.more hinlines
  have hfuel := (hmore _ _).1 hpaired.fuel
  rw [exec_cons]
  split
  · exact fun hconclusive => (Mode.not_outOfFuel hconclusive).elim
  · next hpos =>
    have hburn : s.burn.machine.fuel = s.machine.fuel - 1 := rfl
    have hstep : step exec looped (.callHelper .listElementAddress) s.burn =
        callNamed exec Helper.listElementAddress.name s.burn := rfl
    rw [hstep]
    intro hconclusive
    obtain ⟨list, index, stack, after, hstack, hafter, hcall⟩ :=
      Unchecked.callNamed_elementAddress (hlink.address hinlines)
        (show s.burn.machine.functions = functions from hs)
        (Unchecked.settled_of_andThen (Mode.isSettled hinlines hconclusive))
    rw [hcall] at hconclusive ⊢
    let t : State := { s with stack := Unchecked.elementAddress list index :: stack }
    have hinline : straight Unchecked.inlineAddress { s with locals, stack := s.stack ++ below } =
        some { t with locals, stack := t.stack ++ below } := by
      obtain ⟨m, frame, _⟩ := s
      obtain rfl := hstack
      rfl
    have hlength : Unchecked.inlineAddress.length = 5 := rfl
    rcases exec_straight (by decide) hinline functions' fuel rest' with
      ⟨hlt, -⟩ | ⟨left, hleft, hexec⟩
    · omega
    · have hother : exec (Unchecked.inlineAddress ++ rest') (s.moved functions' fuel locals below) =
          exec rest' ((t.equip functions after).moved functions' left locals below) := hexec
      rw [hother]
      exact hruns r rfl escapes labels rest rest' below (t.equip functions after) left locals
        hrest rfl
        (show after < bound by omega)
          ⟨(hmore after left).2 (by omega), hpaired.locals, hpaired.below⟩
        hconclusive

end Steps

/-- **Renamed listings run alike.** -/
theorem runs_repeat (hlink : LinkedBy mode known functions functions') (bound : Nat) :
    ListingsRepeat mode known functions functions' bound ∧
      LoopsRepeat mode known functions functions' bound := by
  induction bound with
  | zero =>
    exact ⟨fun _ _ _ _ _ _ _ _ _ _ _ _ h => absurd h (Nat.not_lt_zero _),
      fun _ _ _ _ _ _ _ _ _ _ _ _ _ h => absurd h (Nat.not_lt_zero _)⟩
  | succ bound ih =>
    obtain ⟨hruns, hloops⟩ := ih
    have hlistings : ListingsRepeat mode known functions functions' (bound + 1) := by
      intro r hmode escapes labels code code' below s fuel locals hcode hs hbound hpaired
      subst hmode
      have hburn : s.burn.machine.fuel = s.machine.fuel - 1 := rfl
      have hnext : ∀ {i rest rest'}, Renamed r known escapes labels rest rest' →
          0 < s.machine.fuel → ∀ t left locals, step exec looped i s.burn = (.next, t) →
          Paired r below t left locals →
          Repeats r functions' below (exec rest t)
            (exec rest' (t.moved functions' left locals below)) := by
        intro i rest rest' hrest hpos t left locals ht hleft
        have hfollows := step_keeps exec_keeps looped_keeps i s.burn
        rw [ht] at hfollows
        have hless : t.machine.fuel ≤ s.machine.fuel - 1 := hfollows.fuel
        exact hruns r rfl escapes labels rest rest' below t left locals hrest
          (hfollows.functions.trans hs) (by omega) hleft
      cases hcode with
      | nil => exact fun _ => ⟨fuel, locals, hpaired, rfl⟩
      | plain hi hrest => exact .cons hpaired (fun _ hleft => step_plain hleft hi) (hnext hrest)
      | localGet hname hrest =>
        exact .cons hpaired (fun _ hleft => step_localGet hleft hname) (hnext hrest)
      | localSet hname hrest =>
        exact .cons hpaired (fun _ hleft => (step_writes hleft hname).1) (hnext hrest)
      | localTee hname hrest =>
        exact .cons hpaired (fun _ hleft => (step_writes hleft hname).2) (hnext hrest)
      | call hcallee hrest =>
        refine .cons hpaired (fun hpos hleft => ?_) (hnext hrest)
        exact callee_repeats hlink hruns hcallee hs (by omega) hleft
      | ret _ hrest | br _ hrest =>
        exact .cons hpaired (fun _ hleft _ => ⟨fuel - 1, locals, hleft, rfl⟩) (hnext hrest)
      | brIf _ hrest =>
        refine .cons hpaired (fun _ hleft => ?_) (hnext hrest)
        obtain ⟨m, frame, _ | ⟨value, rest⟩⟩ := s
        · exact fun hconclusive => ⟨fuel - 1, locals, hleft, by rw [hleft.below hconclusive]; rfl⟩
        · exact fun _ => ⟨fuel - 1, locals, ⟨hleft.fuel, hleft.locals, hleft.below⟩, rfl⟩
      | block hbody hrest =>
        refine .cons hpaired (fun hpos hleft => ?_) (hnext hrest)
        refine (hruns r rfl escapes _ _ _ below s.burn (fuel - 1) locals hbody hs (by omega)
          hleft).leaveBody (fun t left frame => ?_) fun _ _ _ h => ⟨h.fuel, h.locals, h.below⟩
        have hheight : (s.burn.moved functions' (fuel - 1) locals below).stack.length =
            s.burn.stack.length + below.length := length_append
        rw [hheight]
        exact Repeats.truncate t
      | loop hbody hrest =>
        refine .cons hpaired (fun hpos hleft => ?_) (hnext hrest)
        have hloop := hloops r rfl escapes _ s.burn.stack.length _ _ below s.burn (fuel - 1)
          locals hbody hs (by omega) hleft
        have hheight : (s.burn.moved functions' (fuel - 1) locals below).stack.length =
            s.burn.stack.length + below.length := length_append
        rw [← hheight] at hloop
        exact hloop
      | @cond _ yields thenBody thenBody' elseBody elseBody' _ _ hthen helse hrest =>
        refine .cons hpaired (fun hpos hleft => ?_) (hnext hrest)
        have hlt : s.machine.fuel - 1 < bound := by omega
        obtain ⟨m, frame, _ | ⟨value, rest⟩⟩ := s
        · exact fun hconclusive => ⟨fuel - 1, locals, hleft, by rw [hleft.below hconclusive]; rfl⟩
        · have hbranch :
              Renamed r known escapes (labels + 1) (if value ≠ 0 then thenBody else elseBody)
              (if value ≠ 0 then thenBody' else elseBody') := by
            split
            · exact hthen
            · exact helse
          exact (hruns r rfl escapes _ _ _ below (State.burn ⟨m, frame, rest⟩)
            (fuel - 1) locals hbranch hs
            hlt ⟨hleft.fuel, hleft.locals, hleft.below⟩).leaveBody (fun _ _ _ =>
              rfl) fun _ _ _ h => h
      | address hinlines hrest =>
        exact address_repeats hlink hruns hinlines hrest hs (by omega) hpaired
    refine ⟨hlistings, ?_⟩
    intro r hmode escapes labels height body body' below s fuel locals hbody hs hbound hpaired
    have honce :=
      hlistings r hmode escapes labels body body' below s fuel locals hbody hs hbound hpaired
    rw [looped_eq, looped_eq]
    rcases hr : exec body s with ⟨flow, t⟩
    rw [hr] at honce
    intro hconclusive
    have hbefore : r.mode.concludes flow = true := by
      cases flow with
      | trap => exact hconclusive
      | _ => rfl
    obtain ⟨left, frame, hleft, hother⟩ := honce hbefore
    rw [hother]
    rcases flow with _ | ⟨_ | depth⟩ | _ | _
    · exact ⟨left, frame, hleft, rfl⟩
    · -- The body starts again, with less fuel than before.
      have hless : t.machine.fuel < s.machine.fuel := fuel_lt_of_branch hr
      have hsame : t.machine.functions = functions := by
        have hfollows := exec_keeps body s
        rw [hr] at hfollows
        exact hfollows.functions.trans hs
      have hagain :=
        hloops r hmode escapes labels height body body' below (t.truncate height) left frame
        hbody hsame (show t.machine.fuel < bound by omega) ⟨hleft.fuel, hleft.locals, hleft.below⟩
        hconclusive
      rw [← Repeats.truncate] at hagain
      exact hagain
    all_goals exact ⟨left, frame, hleft, rfl⟩

/-! ### Jumps -/

/-- A way to end that neither returns nor jumps past the given number of labels. -/
def Confined (labels : Nat) : Flow → Prop
  | .branch depth => depth < labels
  | .ret => False
  | _ => True

theorem Confined.leaveBody (h : Confined (labels + 1) result.1) :
    Confined labels (leaveBody atLabel result).1 := by
  obtain ⟨flow, t⟩ := result
  rcases flow with _ | ⟨_ | depth⟩ | _ | _
  · trivial
  · trivial
  · exact lt_of_succ_lt_succ h
  · exact h
  · trivial

theorem Confined.andThen (h : Confined labels result.1)
    (hnext : ∀ t, result = (.next, t) → Confined labels (next t).1) :
    Confined labels (andThen result next).1 := by
  obtain ⟨flow, t⟩ := result
  cases flow with
  | next => exact hnext t rfl
  | branch | ret | trap => exact h

theorem confined_afterCall (labels : Nat) (s : State) (rest : List Word)
    (effect : Machine.Effect Word) : Confined labels (afterCall s rest effect).1 := by
  obtain ⟨_ | _, m⟩ := effect <;> trivial

theorem confined_call (labels : Nat) (callee : Callee) (s : State) :
    Confined labels (step exec looped (.call callee) s).1 := by
  have hnamed : ∀ name, Confined labels (callNamed exec name s).1 := by
    intro name
    rw [callNamed]
    split
    · trivial
    · split
      · trivial
      · exact confined_afterCall labels s _ _
  cases callee with
  | user name => exact hnamed name
  | helper helper => exact hnamed helper.name
  | intrinsic intrinsic =>
    show Confined labels (callHost intrinsic s).1
    rw [callHost]
    split
    · trivial
    · exact confined_afterCall labels s _ _

theorem confined_plain (hi : i.isPlain = true) (labels : Nat) (s : State) :
    Confined labels (step exec looped i s).1 := by
  obtain ⟨m, frame, stack⟩ := s
  cases i with
  | const | memorySize | unreachable | nop => trivial
  | eqz | drop | memoryGrow | load | store | numeric =>
    rcases stack with _ | ⟨_, _ | _⟩ <;> simp only [step] <;> (try split) <;> trivial
  | _ => cases hi

theorem confined_local (labels : Nat) (name : String) (s : State) :
    Confined labels (step exec looped (.localGet name) s).1 ∧
      Confined labels (step exec looped (.localSet name) s).1 ∧
      Confined labels (step exec looped (.localTee name) s).1 := by
  obtain ⟨m, frame, stack⟩ := s
  refine ⟨?_, ?_, ?_⟩ <;> cases stack <;> simp only [step] <;> (try split) <;> trivial

theorem confined_cons (hstep : ∀ s, Confined labels (step exec looped i s).1)
    (hrest : ∀ s, Confined labels (exec rest s).1) (s : State) :
    Confined labels (exec (i :: rest) s).1 := by
  rw [exec_cons]
  split
  · trivial
  · exact (hstep s.burn).andThen fun t _ => hrest t

theorem confined_looped {body : Code} (hbody : ∀ s, Confined (labels + 1) (exec body s).1)
    (height : Nat) (s : State) : Confined labels (looped height body s).1 := by
  induction hn : s.machine.fuel using Nat.strongRecOn generalizing s with
  | ind fuel ih =>
    have honce := hbody s
    rw [looped_eq]
    rcases hr : exec body s with ⟨_ | ⟨_ | depth⟩ | _ | _, t⟩ <;> rw [hr] at honce
    · trivial
    · exact ih t.machine.fuel (hn ▸ fuel_lt_of_branch hr) (t.truncate height) rfl
    · exact lt_of_succ_lt_succ honce
    · exact honce
    · trivial

/-- The jumps of a listing that does not escape end at its labels, by its form. -/
theorem confined {code code' : Code} (h : Renamed r known False labels code code') (s : State) :
    Confined labels (exec code s).1 := by
  induction h generalizing s with
  | nil => trivial
  | plain hi _ ih => exact confined_cons (confined_plain hi _) ih s
  | @localGet _ name _ _ _ _ _ ih => exact confined_cons (fun s => (confined_local _ name s).1) ih s
  | @localSet _ name _ _ _ _ _ ih =>
      exact confined_cons (fun s => (confined_local _ name s).2.1) ih s
  | @localTee _ name _ _ _ _ _ ih =>
      exact confined_cons (fun s => (confined_local _ name s).2.2) ih s
  | call _ _ ih | address _ _ ih => exact confined_cons (confined_call _ _) ih s
  | ret h => exact h.elim
  | br h _ ih =>
    refine confined_cons (fun _ => ?_) ih s
    exact h.resolve_left id
  | @brIf labels depth _ _ h _ ih =>
    refine confined_cons (fun s => ?_) ih s
    obtain ⟨m, frame, _ | ⟨value, rest⟩⟩ := s
    · trivial
    · show Confined labels (if value ≠ 0 then Flow.branch depth.toNat else .next)
      split
      · exact h.resolve_left id
      · trivial
  | block _ _ hbody ih => exact confined_cons (fun s => (hbody s).leaveBody) ih s
  | loop _ _ hbody ih => exact confined_cons (fun s => confined_looped hbody _ s) ih s
  | cond _ _ _ hthen helse ih =>
    refine confined_cons (fun s => ?_) ih s
    obtain ⟨m, frame, _ | ⟨value, rest⟩⟩ := s
    · trivial
    · refine Confined.leaveBody ?_
      split
      · exact hthen ⟨m, frame, rest⟩
      · exact helse ⟨m, frame, rest⟩

/-- **A listing without jumps out of it** reaches its end or traps. -/
theorem exec_confined {code code' : Code} (h : Renamed r known False 0 code code') (s : State) :
    (exec code s).1 = .next ∨ ∃ trap, (exec code s).1 = .trap trap := by
  have hconfined := confined h s
  rcases hr : exec code s with ⟨flow, t⟩
  rw [hr] at hconfined
  cases flow with
  | next => exact .inl rfl
  | branch => exact absurd hconfined (Nat.not_lt_zero _)
  | ret => exact hconfined.elim
  | trap trap => exact .inr ⟨trap, rfl⟩

end Renamed

end TypedWasm
