import TypedWasm.Proofs.Renamed.Bodies

/-!
# Destructuring

An assignment that takes a value apart evaluates the value once, and then assigns the positions from
left to right. For each position the expressions inside the target run first, then the element is
read from the object as it is at that moment, and is written.
-/

namespace TypedWasm

open Exec TypedWasm.Frame List Lower Lowering Nat State
open Lower (bind_eq_ok_iff pure_eq_ok_iff)

variable {s t : State} {rest code : Code} {functions : List Func} {context : Lowering.Context}
  {start later : Lowering.Progress} {index : Nat} {source : Word}

/-! ### Runs that reach their end -/

namespace Exec

theorem exec_append_next {first second : Code} (h : exec (first ++ second) s = (.next, t)) :
    ∃ r, exec first s = (.next, r) ∧ exec second r = (.next, t) := by
  rw [exec_append] at h
  rcases hr : exec first s with ⟨_ | _ | _ | _, r⟩
  · rw [hr] at h
    exact ⟨r, rfl, h⟩
  all_goals
    rw [hr] at h
    cases h

theorem exec_cons_next {i : Instr} (h : exec (i :: rest) s = (.next, t)) :
    ∃ r, step exec looped i s.burn = (.next, r) ∧ exec rest r = (.next, t) := by
  rw [exec_cons] at h
  split at h
  · cases h
  · rcases hr : step exec looped i s.burn with ⟨_ | _ | _ | _, r⟩
    · rw [hr] at h
      exact ⟨r, rfl, h⟩
    all_goals
      rw [hr] at h
      cases h

theorem straight_of_exec {fuel : Nat}
    (h : exec (code ++ rest) (s.equip functions fuel) = (.next, t))
    (hatomic : ∀ i ∈ code, i.isAtomic = true := by simp [InstrOf.isAtomic, Instr.constU]) :
    ∃ r left, straight code s = some r ∧ exec rest (r.equip functions left) = (.next, t) := by
  induction code generalizing s fuel with
  | nil => exact ⟨s, fuel, rfl, h⟩
  | cons i code ih =>
    have hi : i.isAtomic = true := hatomic i mem_cons_self
    rw [cons_append, exec_cons] at h
    rcases fuel with _ | fuel
    · cases h
    · have hburn : (s.equip functions (fuel + 1)).burn = s.equip functions fuel := rfl
      rw [if_neg (by exact succ_ne_zero fuel), hburn,
        step_atomic exec (fun _ t => (.next, t)) looped (fun _ _ t => (.next, t)) hi] at h
      rw [straight]
      rcases hstep : step (fun _ t => (.next, t)) (fun _ _ t => (.next, t)) i s with
        ⟨_ | _ | _ | _, r⟩
      · rw [hstep] at h
        exact ih h fun j hj => hatomic j (mem_cons_of_mem _ hj)
      all_goals
        rw [hstep] at h
        cases h

end Exec

/-! ### Locals that stay -/

/-- Every local keeps its name, and one of them keeps its word. -/
def Renaming.guarding (guarded : String) (word : Word) : Renaming where
  mode := .named
  frames frame frame' := frame = frame' ∧ frame.get? guarded = some word
  reads := Eq
  writes name name' := name = name' ∧ name ≠ guarded
  get := by
    rintro frame _ name _ ⟨rfl, -⟩ rfl
    cases h : frame.get? name with
    | none => exact .inr ⟨rfl, rfl, rfl⟩
    | some value => exact .inl ⟨value, rfl, rfl⟩
  set := by
    rintro frame _ name _ ⟨rfl, hword⟩ ⟨rfl, hname⟩ value
    cases h : frame.set? name value with
    | none => exact .inr ⟨rfl, rfl, rfl⟩
    | some next =>
      refine .inl ⟨next, next, rfl, rfl, rfl, ?_⟩
      rw [get?_of_set? h, if_neg hname.symm]
      exact hword

theorem Renamed.exec_guarded {guarded : String} {word : Word} {escapes : Prop} {labels : Nat}
    (h : Renamed (.guarding guarded word) (fun _ => True) escapes labels code code)
    (hword : s.locals.get? guarded = some word) (hrun : exec code s = (.next, t)) :
    t.locals.get? guarded = some word := by
  have hlink : LinkedBy .named (fun _ => True) s.machine.functions s.machine.functions :=
    .of_same id (fun _ _ => rfl) fun _ _ _ _ callee _ => by cases callee <;> trivial
  have hrepeats := (runs_repeat hlink (s.machine.fuel + 1)).1 _ rfl escapes labels code code [] s
    s.machine.fuel s.locals h rfl (lt_succ_self _) ⟨Nat.le_refl _, ⟨rfl, hword⟩, nofun⟩
  rw [hrun] at hrepeats
  obtain ⟨-, -, ⟨-, ⟨-, hkept⟩, -⟩, -⟩ := hrepeats rfl
  exact hkept

namespace Lowering

theorem requiredClass_eq_ok_iff {ty : Ty} {cls : String} :
    (requiredClass ty).run context start = (.ok cls, later) ↔
      ty.className? = some cls ∧ start = later := by
  rw [requiredClass]
  cases ty.className? <;> simp

/-- The shape of code that leaves a temporary made earlier. -/
def Shape.guarding (index : Nat) (word : Word) : Shape :=
  { naming := .guarding (tempName index) word, known := fun _ => True, escapes := False }

/-- No local of a body has the name of a temporary. -/
def Context.TempsFree (context : Context) : Prop :=
  ∀ name, context.env.isLocal name = true → ∀ index, name ≠ tempName index

theorem admits_guarding (hfree : context.TempsFree) (hindex : index < start.temps) (word : Word) :
    Admits (.shifted 0 context) start (later, later) (.guarding index word) where
  locals name hname := ⟨rfl, ⟨rfl, hfree name hname index⟩, nofun⟩
  scratch := ⟨rfl, scratchLocal_ne_tempName index⟩
  temps other hother _ := ⟨rfl, ⟨rfl, fun he => by
    have := tempName_injective he
    omega⟩, nofun⟩
  callables _ _ := trivial
  helpers _ _ _ := trivial
  inlines h := absurd h Bool.false_ne_true
  scope := nofun

end Lowering

namespace Destructuring

open Lowering (Context Progress tempName)

variable {target : Pattern} {name : String}

/-! ### Elements and places -/

/-- An element of an object, as a machine holds it: a field of an instance in the order the fields
were declared, or an element of a tuple or list. -/
def element? (env : Environment) (ty : Ty) (source : Word) (position : Nat) (m : Machine) :
    Option Word :=
  match ty with
  | .cls name => do
    let layout ← (env.classLayout name).toOption
    let field ← layout.fields[position]?
    let offset ← (Block.instanceField field.offset).toOption
    (m.loadWord source offset).toOption
  | .tuple _ => do
    let offset ← (Block.tupleElement (UInt32.ofNat position)).toOption
    (m.loadWord source offset).toOption
  | .list _ => (m.loadWord (Unchecked.elementAddress source (Word.ofNat position)) 0).toOption
  | _ => none

inductive Place where
  | variable (name : String)
  | word (address : Word) (offset : UInt32)

def Place.write (place : Place) (value : Word) (s : State) : Option State :=
  match place with
  | .variable name => (s.locals.set? name value).map fun locals => { s with locals }
  | .word address offset =>
    (s.machine.storeWord address offset value).toOption.map fun machine => { s with machine }

/-- The expressions inside a target take a state to another one and give the place it stands for. -/
inductive Resolves (context : Context) (s : State) : Target → Place → State → Prop
  | local {name : String} {fuel : Nat} (hlocal : context.env.isLocal name = true) :
      Resolves context s (.id name) (.variable name) (s.equip s.machine.functions fuel)
  | global {name : String} {address : UInt32} {fuel : Nat}
      (hlocal : context.env.isLocal name = false)
      (haddress : context.env.globalAddress name = .ok address) :
      Resolves context s (.id name) (.word (Word.ofUInt32 address) 0)
        (s.equip s.machine.functions fuel)
  | field {object : Expr} {field cls : String} {index offset : UInt32} {start later : Progress}
      {code : Code} {address : Word} {r : State} (hcls : object.ty.className? = some cls)
      (hindex : context.env.fieldOffset cls field = .ok index)
      (hoffset : Block.instanceField index = .ok offset)
      (hcode : (expr object).run context start = (.ok code, later))
      (hrun : exec code s = (.next, r.push address)) :
      Resolves context s (.lookup object field) (.word address offset) r
  | element {object key : Expr} {start later : Progress} {code : Code} {address : Word}
      {r : State} (hcode : (elementAddress object key).run context start = (.ok code, later))
      (hrun : exec code s = (.next, r.push address)) :
      Resolves context s (.index object key) (.word address 0) r

/-- Positions are assigned one after another. An ignored one is passed over. For any other the
expressions inside its target run, then its element is read, and then that word is written. -/
inductive Assigns (context : Context) (ty : Ty) (source : Word) :
    Nat → List Slot → State → State → Prop
  | nil {position : Nat} {s : State} : Assigns context ty source position [] s s
  | ignored {position : Nat} {slot : Slot} {rest : List Slot} {s t : State}
      (hignore : slot.ignore = true) (hrest : Assigns context ty source (position + 1) rest s t) :
      Assigns context ty source position (slot :: rest) s t
  | write {position : Nat} {slot : Slot} {rest : List Slot} {s r w t : State} {place : Place}
      {value : Word} (fuel : Nat) (hignore : slot.ignore = false)
      (hplace : Resolves context s slot.target place r)
      (hvalue : element? context.env ty source position r.machine = some value)
      (hwrite : place.write value r = some w)
      (hrest : Assigns context ty source (position + 1) rest (w.equip r.machine.functions fuel) t) :
      Assigns context ty source position (slot :: rest) s t

/-! ### Targets -/

/-- Code that pushes an element of the object whose address a local holds. -/
def Reads (functions : List Func) (name : String) (source : Word) (element : Machine → Option Word)
    (value : Code) : Prop :=
  ∀ (rest : Code) (r t : State), r.machine.functions = functions →
    r.locals.get? name = some source → exec (value ++ rest) r = (.next, t) →
    ∃ word fuel, element r.machine = some word ∧
      exec rest ((r.push word).equip functions fuel) = (.next, t)

section Targets

variable {element : Machine → Option Word} {value : Code}

/-- The element is read, written to a place, and the run goes on with the object's address still in
its local. -/
def Passes (functions : List Func) (index : Nat) (source : Word) (element : Machine → Option Word)
    (rest : Code) (t : State) (place : Place) (r : State) : Prop :=
  ∃ word w fuel, element r.machine = some word ∧ place.write word r = some w ∧
    r.machine.functions = functions ∧ w.locals.get? (tempName index) = some source ∧
    exec rest (w.equip functions fuel) = (.next, t)

theorem Reads.store (hreads : Reads functions (tempName index) source element value)
    {offset : UInt32} {r : State} (hfunctions : r.machine.functions = functions)
    (hsource : r.locals.get? (tempName index) = some source)
    (hexec : exec (value ++ ([.store offset] ++ rest)) r = (.next, t)) :
    ∃ q address, r = q.push address ∧
      Passes functions index source element rest t (.word address offset) q := by
  obtain ⟨word, fuel, hword, hstored⟩ := hreads _ r t hfunctions hsource hexec
  obtain ⟨w, left, hstraight, hrest⟩ := straight_of_exec hstored
  obtain ⟨m, locals, _ | ⟨address, below⟩⟩ := r
  · simp [straight, step, push] at hstraight
  · cases hstore : m.storeWord address offset word with
    | error trap => simp [straight, step, push, hstore] at hstraight
    | ok stored =>
      obtain rfl : ⟨stored, locals, below⟩ = w := by
        simpa [straight, step, push, hstore] using hstraight
      refine ⟨⟨m, locals, below⟩, address, rfl, word,
        ⟨stored, locals, below⟩, left, hword, ?_, hfunctions, hsource, hrest⟩
      rw [Place.write, hstore]
      rfl

theorem Reads.set (hreads : Reads functions (tempName index) source element value)
    (hname : name ≠ tempName index) (hfunctions : s.machine.functions = functions)
    (hsource : s.locals.get? (tempName index) = some source)
    (hexec : exec (value ++ ([.localSet name] ++ rest)) s = (.next, t)) :
    Passes functions index source element rest t (.variable name) s := by
  obtain ⟨word, fuel, hword, hset⟩ := hreads _ s t hfunctions hsource hexec
  obtain ⟨w, left, hstraight, hrest⟩ := straight_of_exec hset
  cases hlocals : s.locals.set? name word with
  | none => simp [straight, step, push, hlocals] at hstraight
  | some locals =>
    obtain rfl : { s with locals } = w := by
      simpa [straight, step, push, hlocals] using hstraight
    refine ⟨word, { s with locals }, left, hword, ?_, hfunctions, ?_, hrest⟩
    · rw [Place.write, hlocals]
      rfl
    · show locals.get? (tempName index) = some source
      rw [get?_of_set? hlocals, if_neg hname.symm]
      exact hsource

/-- The code of an expression leaves the functions and the temporaries made earlier. -/
theorem guarded_run {step : Lower Code}
    (hstep : Lowering.RenumbersCode (.shifted 0 context) step step)
    (hrun : step.run context start = (.ok code, later)) (hfree : context.TempsFree)
    (hindex : index < start.temps) (hfunctions : s.machine.functions = functions)
    (hsource : s.locals.get? (tempName index) = some source) (hexec : exec code s = (.next, t)) :
    t.machine.functions = functions ∧ t.locals.get? (tempName index) = some source := by
  have hkeeps := exec_keeps code s
  rw [hexec] at hkeeps
  refine ⟨hkeeps.functions.trans hfunctions, ?_⟩
  obtain ⟨-, -, hrenames⟩ := Lowering.Renumbers.self hstep hrun
  exact ((hrenames _ (admits_guarding hfree hindex source)).renamed 0).exec_guarded hsource hexec

/-- **A target is assigned**: the expressions inside it run, then the element is read and
written. -/
theorem assignTo_passes {target : Target}
    (hrun : (assignTo target value).run context start = (.ok code, later))
    (hfree : context.TempsFree) (hindex : index < start.temps)
    (hreads : Reads functions (tempName index) source element value)
    (hfunctions : s.machine.functions = functions)
    (hsource : s.locals.get? (tempName index) = some source)
    (hexec : exec (code ++ rest) s = (.next, t)) : ∃ place r, Resolves context s target place r ∧
      Passes functions index source element rest t place r := by
  simp only [assignTo, bind_eq_ok_iff, context_eq_ok_iff] at hrun
  obtain ⟨_, _, ⟨rfl, rfl⟩, hrun⟩ := hrun
  cases target with
  | id name =>
    dsimp only at hrun
    split at hrun
    · next hlocal =>
      obtain ⟨rfl, -⟩ := pure_eq_ok_iff.1 hrun
      rw [append_assoc] at hexec
      exact ⟨_, s, @Resolves.local context s name s.machine.fuel hlocal,
        hreads.set (hfree name hlocal index) hfunctions hsource hexec⟩
    · next hlocal =>
      simp only [bind_eq_ok_iff, ofResult_eq_ok_iff, pure_eq_ok_iff] at hrun
      obtain ⟨address, _, ⟨haddress, -⟩, rfl, -⟩ := hrun
      have hself : s = s.equip functions s.machine.fuel := by rw [← hfunctions]; rfl
      rw [hself, append_assoc, append_assoc] at hexec
      obtain ⟨r, left, hstraight, hexec⟩ := straight_of_exec hexec
      obtain rfl : s.push (Word.ofUInt32 address) = r := Option.some.inj hstraight
      have hpushedSource : ((s.push (Word.ofUInt32 address)).equip functions left).locals.get?
          (tempName index) = some source := hsource
      obtain ⟨⟨m, locals, below⟩, word, hpushed, hpasses⟩ := hreads.store rfl hpushedSource hexec
      obtain ⟨rfl, rfl, rfl, rfl⟩ : s.machine.equip functions left = m ∧ s.locals = locals ∧
          Word.ofUInt32 address = word ∧ s.stack = below := by
        simpa [push, equip] using hpushed
      refine ⟨_, s.equip s.machine.functions left, .global (by simpa using hlocal) haddress, ?_⟩
      rw [hfunctions]
      exact hpasses
  | lookup object field =>
    simp only [bind_eq_ok_iff, ofLookup_eq_ok_iff, ofChecked_eq_ok_iff, pure_eq_ok_iff] at hrun
    obtain ⟨cls, _, hcls, word, _, ⟨hword, rfl⟩, objectCode, middle, hobject, offset, _,
      ⟨hoffset, rfl⟩, rfl, rfl⟩ := hrun
    obtain ⟨hty, rfl⟩ := requiredClass_eq_ok_iff.1 hcls
    rw [append_assoc, append_assoc] at hexec
    obtain ⟨r, hr, hexec⟩ := exec_append_next hexec
    obtain ⟨hrfunctions, hrsource⟩ := guarded_run (expr_renumbers object False.elim (.unknown rfl))
      hobject hfree hindex hfunctions hsource hr
    obtain ⟨q, address, rfl, hpasses⟩ := hreads.store hrfunctions hrsource hexec
    exact ⟨_, q, .field hty hword hoffset hobject hr, hpasses⟩
  | index object key =>
    dsimp only at hrun
    split at hrun
    · simp only [bind_eq_ok_iff, pure_eq_ok_iff] at hrun
      obtain ⟨addressCode, _, haddress, rfl, rfl⟩ := hrun
      rw [append_assoc, append_assoc] at hexec
      obtain ⟨r, hr, hexec⟩ := exec_append_next hexec
      have hrenumbers := @listElement_renumbers (.shifted 0 context) _ _ key.ty
        (expr_renumbers object False.elim (.unknown rfl))
          (expr_renumbers key False.elim (.unknown rfl))
      obtain ⟨hrfunctions, hrsource⟩ := guarded_run hrenumbers haddress hfree hindex hfunctions
        hsource hr
      obtain ⟨q, address, rfl, hpasses⟩ := hreads.store hrfunctions hrsource hexec
      exact ⟨_, q, .element haddress hr, hpasses⟩
    · exact absurd hrun (by simp)
    · exact absurd hrun (by simp)

end Targets

/-! ### Patterns -/

section Patterns

variable {count position : Nat} {slots : List Slot} {valueAt : Nat → Lower Code}
  {size : String}

variable {ty : Ty}

/-- Under the names of the helpers that code calls nothing else is loaded. -/
def HelpersLoaded (functions : List Func) (progress : Progress) : Prop :=
  ∀ helper ∈ progress.helpers, ∀ fn, functions.find? (·.name == helper.name) = some fn →
    ∃ slack, fn = helper.function slack

theorem HelpersLoaded.within (h : HelpersLoaded functions later) (hwithin : start.Within later) :
    HelpersLoaded functions start :=
  fun helper hhelper => h helper (hwithin.helpers hhelper)

/-- A step whose code pushes an element. -/
def ReadsElement (context : Context) (functions : List Func) (index : Nat) (source : Word) (ty : Ty)
    (position : Nat) (step : Lower Code) : Prop :=
  ∀ ⦃start later : Progress⦄ ⦃value : Code⦄,
    step.run context start = (.ok value, later) → start.Within later ∧
      (HelpersLoaded functions later →
        Reads functions (tempName index) source (element? context.env ty source position) value)

section

variable
  (hreads : ∀ position < count,
    ReadsElement context functions index source ty position (valueAt position))
include hreads

/-- **The positions of a pattern** are assigned in order. -/
theorem assignSlots_assigns (hfree : context.TempsFree) (hcount : position + slots.length = count)
    (hrun : (assignSlots valueAt position slots).run context start = (.ok code, later)) :
    start.Within later ∧ ∀ {s : State}, HelpersLoaded functions later → index < start.temps →
      s.machine.functions = functions → s.locals.get? (tempName index) = some source →
      exec code s = (.next, t) → Assigns context ty source position slots s t := by
  induction slots generalizing position start code with
  | nil =>
    obtain ⟨rfl, rfl⟩ := pure_eq_ok_iff.1 hrun
    refine ⟨.refl _, fun {s} _ _ _ _ hexec => ?_⟩
    obtain rfl : s = t := congrArg Prod.snd hexec
    exact .nil
  | cons slot rest ih =>
    rw [length_cons] at hcount
    rw [assignSlots] at hrun
    split at hrun
    · next hignore =>
      exact (ih (by omega) hrun).imp_right fun hassigns _ hloaded hindex hfunctions hsource hexec =>
        .ignored hignore (hassigns hloaded hindex hfunctions hsource hexec)
    · next hignore =>
      simp only [bind_eq_ok_iff, pure_eq_ok_iff] at hrun
      obtain ⟨value, middle, hvalue, first, next, hfirst, codes, _, hcodes, rfl, rfl⟩ := hrun
      obtain ⟨hwithin, hread⟩ := hreads position (by omega) hvalue
      have hnext := ((assignTo_renumbers (v := .shifted 0 _) False.elim (.unknown rfl)
        value value).self hfirst).1
      obtain ⟨hlater, hassigns⟩ := ih (by omega) hcodes
      refine ⟨(hwithin.trans hnext).trans hlater, fun hloaded hindex hfunctions hsource hexec => ?_⟩
      have hmiddle : index < middle.temps := Nat.lt_of_lt_of_le hindex hwithin.temps
      obtain ⟨place, r, hresolves, word, w, fuel, hword, hwrite, hrfunctions, hwsource, hrest⟩ :=
        assignTo_passes hfirst hfree hmiddle (hread (hloaded.within (hnext.trans hlater)))
          hfunctions hsource hexec
      refine .write fuel (by simpa using hignore) hresolves hword hwrite ?_
      rw [hrfunctions]
      exact hassigns hloaded (Nat.lt_of_lt_of_le hmiddle hnext.temps) rfl hwsource hrest

end

theorem reads_word (name : String) (offset : UInt32) :
    Reads functions name source (fun m => (m.loadWord source offset).toOption)
      [.localGet name, .load offset] := by
  intro rest r t hfunctions hsource hexec
  have hself : r = r.equip functions r.machine.fuel := by rw [← hfunctions]; rfl
  rw [hself] at hexec
  obtain ⟨u, left, hstraight, hrest⟩ := straight_of_exec hexec
  cases hload : r.machine.loadWord source offset with
  | error trap => simp [straight, step, push, hsource, hload] at hstraight
  | ok word =>
    obtain rfl : r.push word = u := by
      simpa [straight, step, push, hsource, hload] using hstraight
    exact ⟨word, left, by simp [hload, Except.toOption], hrest⟩

theorem reads_listElement
    (haddress : ∀ fn, functions.find? (·.name == Helper.listElementAddress.name) = some fn →
      fn = HelperBody.listElementAddress) (name : String) (position : Word) :
    Reads functions name source
      (fun m => (m.loadWord (Unchecked.elementAddress source position) 0).toOption)
      [.localGet name, .const position, .callHelper .listElementAddress, .load 0] := by
  intro rest r t hfunctions hsource hexec
  have hself : r = r.equip functions r.machine.fuel := by rw [← hfunctions]; rfl
  rw [hself] at hexec
  change exec ([.localGet name, .const position] ++ _) _ = _ at hexec
  obtain ⟨u, left, hstraight, hcall⟩ := straight_of_exec hexec
  obtain rfl : (r.push source).push position = u := by
    simpa [straight, step, push, hsource] using hstraight
  obtain ⟨v, hstep, hload⟩ := exec_cons_next hcall
  have hnamed : callNamed exec Helper.listElementAddress.name
      (((r.push source).push position).equip functions left).burn = (.next, v) := hstep
  obtain ⟨list, index, below, fuel, hstack, -, hcalled⟩ :=
    @Unchecked.callNamed_elementAddress (((r.push source).push position).equip functions left).burn
      functions haddress rfl (by rw [hnamed]; rfl)
  obtain ⟨rfl, rfl, rfl⟩ : position = index ∧ source = list ∧ r.stack = below := by
    simpa [burn, equip, push] using hstack
  obtain rfl : (r.push (Unchecked.elementAddress source position)).equip functions fuel = v :=
    congrArg Prod.snd (hcalled.symm.trans hnamed)
  obtain ⟨w, last, hstraight', hrest⟩ := straight_of_exec hload
  cases hword : r.machine.loadWord (Unchecked.elementAddress source position) 0 with
  | error trap => simp [straight, step, push, hword] at hstraight'
  | ok word =>
    obtain rfl : r.push word = w := by
      simpa [straight, step, push, hword] using hstraight'
    exact ⟨word, last, by simp [hword, Except.toOption], hrest⟩

theorem partOf_reads {place : Checked UInt32} (helement : ∀ offset, place = .ok offset → ∀ m,
      element? context.env ty source position m = (m.loadWord source offset).toOption) :
    ReadsElement context functions index source ty position
      (partOf (tempName index) place) := by
  intro start later value hrun
  simp only [partOf, bind_eq_ok_iff, ofChecked_eq_ok_iff, pure_eq_ok_iff] at hrun
  obtain ⟨offset, _, ⟨hoffset, rfl⟩, rfl, rfl⟩ := hrun
  refine ⟨.refl _, fun _ => ?_⟩
  rw [funext (helement offset hoffset)]
  exact reads_word _ offset

theorem listPart_reads {item : Ty} (position : Nat) :
    ReadsElement context functions index source (.list item) position
      (listPart (tempName index) size count none position) := by
  intro start later value hrun
  have hwithin := ((listPart_renumbers (v := .shifted 0 _) (tempName index) (tempName index) size
    size count none position).self hrun).1
  simp only [listPart, elementOf, bind_eq_ok_iff, pure_eq_ok_iff] at hrun
  obtain ⟨call, _, hcall, rfl, rfl⟩ := hrun
  obtain rfl : .callHelper .listElementAddress = call := Except.ok.inj (congrArg Prod.fst hcall)
  refine ⟨hwithin, fun hloaded => reads_listElement (fun fn hfn => ?_) _ _⟩
  obtain ⟨slack, rfl⟩ := hloaded .listElementAddress
    (by rw [← congrArg (·.2.helpers) hcall]; exact mem_insert_self) fn hfn
  rfl

theorem rejectStarred_eq_ok_iff {what : String} {done : Unit} :
    (rejectStarred slots what).run context start = (.ok done, later) ↔
      slots.any (·.starred) = false ∧ start = later := by
  rw [rejectStarred]
  cases slots.any (·.starred) <;> simp

/-- What takes an object apart assigns all its positions in order. -/
def TakesApart (context : Context) (functions : List Func) (index : Nat) (ty : Ty)
    (slots : List Slot) (step : Lower Code) : Prop :=
  ∀ ⦃start later : Progress⦄ ⦃code : Code⦄ ⦃source : Word⦄ ⦃s t : State⦄,
    step.run context start = (.ok code, later) → HelpersLoaded functions later →
    index < start.temps → s.machine.functions = functions →
      s.locals.get? (tempName index) = some source →
    exec code s = (.next, t) →
    (∀ item, ty = .list item →
      s.machine.loadWord source Block.sizeOffset = .ok (Word.ofNat slots.length)) ∧
    ∃ (locals : Frame) (fuel : Nat),
      (∀ name, (∀ other, name ≠ tempName other) → locals.get? name = s.locals.get? name) ∧
      Assigns context ty source 0 slots (equip { s with locals } functions fuel) t

theorem instanceParts_takesApart (hfree : context.TempsFree) (cls : String) (slots : List Slot) :
    TakesApart context functions index (.cls cls) slots
      (instanceParts cls slots (tempName index)) := by
  intro start later code source s t hrun hloaded hindex hfunctions hsource hexec
  simp only [instanceParts, bind_eq_ok_iff, rejectStarred_eq_ok_iff,
    context_eq_ok_iff, ofLookup_eq_ok_iff] at hrun
  obtain ⟨_, _, ⟨-, rfl⟩, _, _, ⟨rfl, rfl⟩, layout, _, ⟨hlayout, rfl⟩, hrun⟩ := hrun
  split at hrun
  · exact absurd hrun (by simp)
  · next hcount =>
    refine ⟨by simp, s.locals, s.machine.fuel, fun _ _ => rfl, ?_⟩
    subst hfunctions
    refine (assignSlots_assigns (fun position hposition => ?_) hfree (Nat.zero_add _) hrun).2
      hloaded hindex rfl hsource hexec
    have hfield : position < layout.fields.length := by omega
    rw [getElem?_eq_getElem hfield]
    refine partOf_reads fun offset hoffset m => ?_
    simp [element?, hlayout, hfield, hoffset, Except.toOption]

theorem tupleParts_takesApart (hfree : context.TempsFree) (items : List Ty) (slots : List Slot) :
    TakesApart context functions index (.tuple items) slots
      (tupleParts items.length slots (tempName index)) := by
  intro start later code source s t hrun hloaded hindex hfunctions hsource hexec
  simp only [tupleParts, bind_eq_ok_iff, rejectStarred_eq_ok_iff] at hrun
  obtain ⟨_, _, ⟨-, rfl⟩, hrun⟩ := hrun
  split at hrun
  · exact absurd hrun (by simp)
  · refine ⟨by simp, s.locals, s.machine.fuel, fun _ _ => rfl, ?_⟩
    subst hfunctions
    refine (assignSlots_assigns (fun position _ => ?_) hfree (Nat.zero_add _) hrun).2 hloaded hindex
      rfl hsource hexec
    refine partOf_reads fun offset hoffset m => ?_
    simp [element?, hoffset, Except.toOption]

/-- What is done about a size that does not match. -/
def reportSize (required : Word) (size : String) : Code :=
  [.const required, .localGet size, .callIntrinsic .unpackError, .unreachable]

theorem reportSize_traps (required : Word) (size : String) (s : State) :
    ∃ trap, (exec (reportSize required size) s).1 = .trap trap := by
  have hconfined : Renamed (.same .named) (fun _ => True) False 0 (reportSize required size)
      (reportSize required size) :=
    .plain rfl (.localGet rfl (.call trivial (.plain rfl .nil)))
  rcases hconfined.exec_confined s with hnext | htrap
  · have hlast : exec ([.const required, .localGet size, .callIntrinsic .unpackError] ++
        [.unreachable]) s = (.next, (exec (reportSize required size) s).2) := Prod.ext hnext rfl
    obtain ⟨r, -, hr⟩ := exec_append_next hlast
    obtain ⟨_, hstep, -⟩ := exec_cons_next hr
    cases hstep
  · exact htrap

/-- A size check that is passed: the size is the required one, and goes into its local. -/
theorem sizeCheck_passes {required : Word} (hfunctions : s.machine.functions = functions)
    (hsource : s.locals.get? name = some source)
    (hexec : exec ([.localGet name, .load Block.sizeOffset, .localSet size, .localGet size,
      .const required, .numeric .ne, .when (reportSize required size)] ++ rest) s = (.next, t)) :
    s.machine.loadWord source Block.sizeOffset = .ok required ∧
      ∃ locals fuel, s.locals.set? size required = some locals ∧
        exec rest (equip { s with locals } functions fuel) = (.next, t) := by
  have hself : s = s.equip functions s.machine.fuel := by rw [← hfunctions]; rfl
  rw [hself] at hexec
  change exec ([.localGet name, .load Block.sizeOffset, .localSet size, .localGet size,
    .const required, .numeric .ne] ++ _) _ = _ at hexec
  obtain ⟨u, left, hstraight, hcond⟩ := straight_of_exec hexec
  cases hload : s.machine.loadWord source Block.sizeOffset with
  | error trap => simp [straight, step, push, hsource, hload] at hstraight
  | ok found =>
    cases hset : s.locals.set? size found with
    | none => simp [straight, step, push, hsource, hload, hset] at hstraight
    | some locals =>
      have hget : locals.get? size = some found := by simp [get?_of_set? hset]
      obtain rfl : push { s with locals } (Word.ofBool (found ≠ required)) = u := by
        simpa [straight, step, push, hsource, hload, hset, hget, numeric] using hstraight
      obtain ⟨v, hstep, hrest⟩ := exec_cons_next hcond
      have hbranch : leaveBody (·) (exec (if Word.ofBool (found ≠ required) ≠ 0
          then reportSize required size else [])
          (equip { s with locals } functions (left - 1))) = (.next, v) := hstep
      by_cases hfound : found = required
      · subst hfound
        rw [if_neg (by simp [Word.ofBool]), exec_nil] at hbranch
        obtain rfl : equip { s with locals } functions (left - 1) = v := congrArg Prod.snd hbranch
        exact ⟨rfl, locals, left - 1, hset, hrest⟩
      · rw [if_pos (by simp [Word.ofBool, hfound])] at hbranch
        obtain ⟨trap, htrap⟩ := reportSize_traps required size
          (equip { s with locals } functions (left - 1))
        rw [leaveBody_of_not_branch (by simp [htrap])] at hbranch
        rw [hbranch] at htrap
        cases htrap

theorem listParts_takesApart (hfree : context.TempsFree) (item : Ty)
    (hplain : ∀ slot ∈ slots, slot.starred = false) :
    TakesApart context functions index (.list item) slots
      (listParts slots (tempName index)) := by
  intro start later code source s t hrun hloaded hindex hfunctions hsource hexec
  have hstars : slots.countP (·.starred) = 0 := by
    rw [countP_eq_zero]
    exact fun slot hslot => by simp [hplain slot hslot]
  have hstar : slots.findIdx? (·.starred) = none := by
    rw [findIdx?_eq_none_iff]
    exact hplain
  simp only [listParts, hstars, hstar, Nat.not_lt_zero, if_false, bind_eq_ok_iff,
    newTemp_eq_ok_iff, Option.isNone_none, if_true, pure_eq_ok_iff] at hrun
  obtain ⟨_, _, ⟨rfl, rfl⟩, report, middle, hreport, codes, _, hcodes, rfl, rfl⟩ := hrun
  obtain rfl : .callIntrinsic .unpackError = report := Except.ok.inj (congrArg Prod.fst hreport)
  have hmiddle : start.temps + 1 = middle.temps := congrArg (·.2.temps) hreport
  obtain ⟨hsize, locals, fuel, hset, hrest⟩ := sizeCheck_passes hfunctions hsource hexec
  have hother : ∀ name, name ≠ tempName start.temps → locals.get? name = s.locals.get? name :=
    fun name hname => by rw [get?_of_set? hset, if_neg hname]
  refine ⟨fun _ _ => hsize, locals, fuel, fun name hname => hother name (hname _), ?_⟩
  have hne : tempName index ≠ tempName start.temps := fun he => by
    have := tempName_injective he
    omega
  exact (assignSlots_assigns (fun position _ => listPart_reads position) hfree
    (Nat.zero_add _) hcodes).2 hloaded (by omega) rfl ((hother _ hne).trans hsource) hrest

/-- **A pattern that takes a value apart** assigns its positions in order. -/
theorem pattern_takesApart (hfree : context.TempsFree) (happart : target.isDestructured = true)
    (hplain : ∀ slot ∈ target.slots, slot.starred = false) :
    TakesApart context functions index target.valueType target.slots
      (pattern target (tempName index)) := by
  rw [pattern, if_pos happart]
  split
  · next hty =>
    rw [hty]
    exact instanceParts_takesApart hfree _ _
  · next hty =>
    rw [hty]
    exact tupleParts_takesApart hfree _ _
  · next hty =>
    rw [hty]
    exact listParts_takesApart hfree _ hplain
  · intro start later code source s t hrun
    exact absurd hrun (by simp)

end Patterns

theorem assign_confined {value : Expr}
    (hrun : (stmt (.assign target value)).run context start = (.ok code, later))
    (htrap : ∀ trap, (exec code s).1 ≠ .trap trap) : ∃ t, exec code s = (.next, t) := by
  obtain ⟨-, -, hrenames⟩ :=
    (stmt_renumbers (v := .shifted 0 _) (.assign target value) False.elim (.unknown rfl)).self hrun
  have hrenamed := hrenames { Lowering.Shape.any with escapes := False }
    ⟨fun _ _ => ⟨trivial, trivial, nofun⟩, trivial, fun _ _ _ => ⟨trivial, trivial, nofun⟩,
      fun _ _ => trivial, fun _ _ _ => trivial, fun _ => trivial, nofun⟩ nofun
  rcases (hrenamed.renamed 0).exec_confined s with hnext | ⟨trap, hstopped⟩
  · exact ⟨_, Prod.ext hnext rfl⟩
  · exact absurd hstopped (htrap trap)

end Destructuring

open Lowering (Context Progress) in
/-- **Destructuring assigns in order.** An assignment that takes an instance, a tuple or a list
apart and does not trap evaluates the value once. Then each position from left to right gets the
element that the object holds when that position is assigned. -/
theorem destructuring_assigns_in_order {context : Context} {start later : Progress}
    {target : Pattern} {value : Expr} {code : Code}
    (hrun : (stmt (.assign target value)).run context start = (.ok code, later))
    (hapart : target.isDestructured = true)
    (hplain : ∀ slot ∈ target.slots, slot.starred = false) (hfree : context.TempsFree) {s : State}
    (hloaded : Destructuring.HelpersLoaded s.machine.functions later)
    (htrap : ∀ trap, (exec code s).1 ≠ .trap trap) :
    ∃ (evaluate : Code) (before after : Progress) (r t : State) (source : Word),
      (expr value).run context before = (.ok evaluate, after) ∧
      exec evaluate s = (.next, r.push source) ∧ (∀ item, target.valueType = .list item →
        r.machine.loadWord source Block.sizeOffset = .ok (Word.ofNat target.slots.length)) ∧
      (∃ (locals : Frame) (fuel : Nat), (∀ name, (∀ index, name ≠ tempName index) →
          locals.get? name = r.locals.get? name) ∧
        Destructuring.Assigns context target.valueType source 0 target.slots
          (equip { r with locals } r.machine.functions fuel) t) ∧ exec code s = (.next, t) := by
  obtain ⟨t, hexec⟩ := Destructuring.assign_confined hrun htrap
  simp only [stmt, bind_eq_ok_iff, newTemp_eq_ok_iff, pure_eq_ok_iff] at hrun
  obtain ⟨_, _, ⟨rfl, rfl⟩, evaluate, middle, hevaluate, assigned, _, hassigned, rfl, rfl⟩ := hrun
  have hwithin :=
    ((expr_renumbers (v := .shifted 0 _) value False.elim (.unknown rfl)).self hevaluate).1
  have hparts := hexec
  rw [append_assoc] at hparts
  obtain ⟨u, hu, hparts⟩ := exec_append_next hparts
  have hkeeps := exec_keeps evaluate s
  rw [hu] at hkeeps
  have hself : u = u.equip u.machine.functions u.machine.fuel := rfl
  rw [hself] at hparts
  obtain ⟨v, left, hstraight, hparts⟩ := straight_of_exec hparts
  obtain ⟨m, frame, _ | ⟨source, below⟩⟩ := u
  · simp [straight, step] at hstraight
  · cases hset : frame.set? (tempName start.temps) source with
    | none => simp [straight, step, hset] at hstraight
    | some locals =>
      obtain rfl : ⟨m, locals, below⟩ = v := by
        simpa [straight, step, hset] using hstraight
      have hsame : m.functions = s.machine.functions := hkeeps.functions
      rw [← hsame] at hloaded
      have hheld : locals.get? (tempName start.temps) = some source := by
        simp [get?_of_set? hset]
      obtain ⟨hsize, locals', fuel, hlocals', hassigns⟩ :=
        Destructuring.pattern_takesApart hfree hapart hplain hassigned hloaded
          (Nat.lt_of_lt_of_le (lt_succ_self _) hwithin.temps) rfl hheld hparts
      refine ⟨evaluate, _, middle, ⟨m, frame, below⟩, t, source,
        hevaluate, hu, ?_, ⟨locals', fuel, fun name hname => ?_, hassigns⟩, hexec⟩
      · simpa [equip] using hsize
      · have hother : locals.get? name = frame.get? name := by
          rw [get?_of_set? hset, if_neg (hname _)]
        exact (hlocals' name hname).trans hother

namespace Destructuring

/-- A class of two fields, and a variable for an instance of it. -/
def pair : Program where
  classes := [{ name := "P", fields := [{ name := "x", ty := .number, value := .num 1 },
    { name := "y", ty := .number, value := .num 2 }] }]
  inits := [{ name := "a", ty := .cls "P", value := .none }]

/-- Takes the instance apart into its own fields, the other way round. -/
def reversed : Pattern :=
  .multiple [{ target := .lookup (.id (.cls "P") "a") "y" },
    { target := .lookup (.id (.cls "P") "a") "x" }] (.cls "P")

def pairContext : Lowering.Context := { env := (Environment.extend {} pair).toOption.getD {} }

/-- A state in which the instance is at the start of the heap. -/
def pairState : State where
  machine :=
    { memory := ((({ pages := 2 } : Memory).setWord 4 65536).setWord 65536 1).setWord 65540 2 }
  locals := [(tempName 0, 0)]

def reversedCode : Code :=
  [.constU 4, .load 0, .localSet "$t0", .constU 4, .load 0, .localGet "$t0", .load 0, .store 4,
    .constU 4, .load 0, .localGet "$t0", .load 4, .store 0]

theorem reversed_assigns :
    ∃ later t, (stmt (.assign reversed (.id (.cls "P") "a"))).run pairContext {} =
        (.ok reversedCode, later) ∧ exec reversedCode pairState = (.next, t) ∧
      t.machine.memory.word 65536 = 1 ∧ t.machine.memory.word 65540 = 1 ∧
      ∃ (r : State) (source : Word) (locals : Frame) (fuel : Nat),
        Assigns pairContext (.cls "P") source 0 reversed.slots
          (equip { r with locals } r.machine.functions fuel) t := by
  have hrun : (stmt (.assign reversed (.id (.cls "P") "a"))).run pairContext {} =
      (.ok reversedCode, { temps := 1 }) := rfl
  have hnext : (exec reversedCode pairState).1 = .next := by decide +kernel
  have hwords : (exec reversedCode pairState).2.machine.memory.word 65536 = 1 ∧
      (exec reversedCode pairState).2.machine.memory.word 65540 = 1 := by decide +kernel
  have hfree : pairContext.TempsFree := fun name hname => by cases hname
  obtain ⟨-, -, -, r, t, source, -, -, -, ⟨locals, fuel, -, hassigns⟩, hexec⟩ :=
    destructuring_assigns_in_order hrun rfl (by decide) hfree nofun
      (fun trap htrap => by rw [hnext] at htrap; cases htrap)
  rw [hexec] at hwords
  exact ⟨_, t, hrun, hexec, hwords.1, hwords.2, r, source, locals, fuel, hassigns⟩

/-- Prints the second field of an instance, takes the instance apart into its own fields, and prints
the first. -/
def ontoInstance : Program :=
  { pair with stmts := [
      .assign (.single (.id "a") (.cls "P")) (.construct (.cls "P") "P" []),
      .expr (.printOf (.lookup .number (.id (.cls "P") "a") "y")),
      .assign reversed (.id (.cls "P") "a"),
      .expr (.printOf (.lookup .number (.id (.cls "P") "a") "x"))] }

/-- The same for a list. -/
def ontoList : Program :=
  let xs : Expr := .id (.list .number) "xs"
  let number (n : Int) : Expr := .ofLiteral (.num n)
  { inits := [{ name := "xs", ty := .list .number, value := .none }]
    stmts := [
      .assign (.single (.id "xs") (.list .number)) (.listOf .number [number 1, number 2]),
      .expr (.printOf (.index .number xs (number 1))),
      .assign (.multiple [{ target := .index xs (number 1) }, { target := .index xs (number 0) }]
        (.list .number)) xs,
      .expr (.printOf (.index .number xs (number 0)))] }

/-- Takes an instance apart into locals, of which the first has the name of a temporary, and prints
the second. -/
def ontoTemp : Program :=
  { pair with
    funs := [{
      name := "f", parameters := []
      inits := [{ name := "$t0", ty := .number, value := .num 0 },
        { name := "b", ty := .number, value := .num 0 }]
      body := [
        .assign (.multiple [{ target := .id "$t0" }, { target := .id "b" }] (.cls "P"))
          (.construct (.cls "P") "P" []),
        .ret (.id .number "b")] }]
    stmts := [.expr (.printOf (.call .number "f" []))] }

/-- A target inside the object is written before later elements are read, and a local with the name
of a temporary may take the place of the object: in each of these programs the second position gets
another word than the `2` the object held. -/
theorem elements_read_late : outcome? {} ontoInstance = some (.ok 1, ["2", "1"]) ∧
      outcome? {} ontoList = some (.ok 1, ["2", "1"]) ∧
        outcome? {} ontoTemp = some (.ok 0, ["0"]) := by
  decide +kernel

end Destructuring

end TypedWasm
