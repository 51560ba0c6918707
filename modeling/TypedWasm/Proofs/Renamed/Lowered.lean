import TypedWasm.Proofs.Bounds.Extents
import TypedWasm.Proofs.CallSites
import TypedWasm.Proofs.Renamed.Runs

/-!
# Lowering twice

The same source is lowered twice: with a number of temporaries made before the second time, and with
index checks left out the second time if they are to be. Both lowerings fail for the same reason, or
both give listings that are the same under other names.

Lowering takes note of a helper or an intrinsic in the step that writes a call of it, so the notes
of a body name what its code calls and nothing else. Offsets and sizes of blocks are checked, and
none is too large where the syntax tree is small, its literals have blocks and lists reserve few
places. The code of an expression leaves exactly one word where calls pass a word for every
parameter. Temporaries, helpers and intrinsics are only known once a whole body is lowered, so that
is said of every scope that has those of the progress made.
-/

namespace TypedWasm

open Allocation Block Discipline TypedWasm.Expr InstrOf List Lower

/-- The configuration with index checks on or off. -/
def Config.checking (config : Config) (checks : Bool) : Config :=
  { config with listBoundsCheck := checks }

theorem InstrOf.allCallees_append {ι φ : Type} (first second : List (InstrOf ι φ)) :
    allCallees (first ++ second) = allCallees first ++ allCallees second := by
  induction first with
  | nil => rfl
  | cons i rest ih => simp [allCallees, ih]

/-- A renaming that no frames follow. -/
def Renaming.vacuous : Renaming where
  mode := .unchecked
  frames _ _ := False
  reads _ _ := True
  writes _ _ := True
  get h := h.elim
  set h := h.elim

namespace Lowering

open Discipline (Scope Moves)

variable {later : Progress × Progress} {name : String} {count : Nat} (called : Helper)
  (size : UInt32)

/-! ### Progress -/

/-- Progress that was made on the way to other progress. -/
structure Progress.Within (progress later : Progress) : Prop where
  temps : progress.temps ≤ later.temps
  helpers : progress.helpers ⊆ later.helpers
  intrinsics : progress.intrinsics ⊆ later.intrinsics

theorem Progress.Within.refl (progress : Progress) : progress.Within progress :=
  ⟨Nat.le_refl _, fun _ h => h, fun _ h => h⟩

theorem Progress.Within.trans {first second third : Progress} (h : first.Within second)
    (h' : second.Within third) : first.Within third :=
  ⟨Nat.le_trans h.temps h'.temps, fun _ hmem => h'.helpers (h.helpers hmem),
    fun _ hmem => h'.intrinsics (h.intrinsics hmem)⟩

/-- The functions a body may call, with their types. `arity` gives the number of parameters of the
functions of its unit. -/
structure Links (arity : String → Nat) (callables : List String) (progress : Progress)
    (typeOf : Callee → Option FuncType) : Prop where
  callables : ∀ name ∈ callables,
    typeOf (.user name) = some { params := arity name, returnsValue := true }
  helpers : ∀ helper ∈ progress.helpers, typeOf (.helper helper) =
    Helper.runtimeType (.helper helper)
  intrinsics : ∀ intrinsic ∈ progress.intrinsics,
    typeOf (.intrinsic intrinsic) = Helper.runtimeType (.intrinsic intrinsic)

theorem Links.within {arity : String → Nat} {callables : List String} {progress later : Progress}
    {typeOf : Callee → Option FuncType} (h : Links arity callables later typeOf)
    (hwithin : progress.Within later) : Links arity callables progress typeOf where
  callables := h.callables
  helpers helper hmem := h.helpers helper (hwithin.helpers hmem)
  intrinsics intrinsic hmem := h.intrinsics intrinsic (hwithin.intrinsics hmem)

/-! ### Shapes -/

/-- What may vary between two listings, and what they may do. -/
structure Shape where
  naming : Renaming
  /-- The functions that may be called. -/
  known : String → Prop
  /-- Whether code may return. -/
  escapes : Prop
  /-- What the names in the first listing stand for, where the stack is looked at. -/
  scope : Option Scope := none

namespace Shape

/-- The shape that allows everything. -/
def any : Shape := { naming := .vacuous, known := fun _ => True, escapes := True }

/-- A local that is read and written under another name. -/
structure Names (shape : Shape) (name name' : String) : Prop where
  reads : shape.naming.reads name name'
  writes : shape.naming.writes name name'
  there : ∀ scope ∈ shape.scope, scope.hasLocal name = true

/-- A listing and the same one under other names, inside any number of labels. The first one takes
`taken` words from the stack and leaves `left`. -/
structure Renames (shape : Shape) (code code' : Code) (taken left : Nat) : Prop where
  renamed : ∀ labels, Renamed shape.naming shape.known shape.escapes labels code code'
  moves : ∀ scope ∈ shape.scope, ∀ labels, Moves scope labels code taken left

namespace Renames

variable {shape : Shape} {first first' second second' : Code} {taken between left more : Nat}
  {name' : String}

theorem nil : shape.Renames [] [] left left := ⟨fun _ => .nil, fun _ _ _ => .nil _⟩

theorem andThen (h : shape.Renames first first' taken between)
    (h' : shape.Renames second second' between left) :
    shape.Renames (first ++ second) (first' ++ second') taken left :=
  ⟨fun labels => (h.renamed labels).append (h'.renamed labels),
    fun scope hscope labels => (h.moves scope hscope labels).append (h'.moves scope hscope labels)⟩

theorem append (h : shape.Renames first first' taken between)
    (h' : shape.Renames second second' more left) :
    shape.Renames (first ++ second) (first' ++ second') (more - between + taken)
      (between - more + left) :=
  ⟨fun labels => (h.renamed labels).append (h'.renamed labels),
    fun scope hscope labels => (h.moves scope hscope labels).compose (h'.moves scope hscope labels)⟩

theorem plain (code : Code) (h : code.all isPlain = true) :
    shape.Renames code code (balance code).1 (balance code).2 := by
  induction code with
  | nil => exact nil
  | cons i rest ih =>
    rw [all_cons, Bool.and_eq_true] at h
    refine ⟨fun labels => .plain h.1 ((ih h.2).renamed labels), fun scope hscope labels => ?_⟩
    have hfirst : Moves scope labels [i] (plainEffect i).1 (plainEffect i).2 := by
      cases i with
      | unreachable => exact .unreachable _ _
      | localGet | localSet | localTee | call | ret | br | brIf | block | loop | cond => cases h.1
      | _ => exact .effect rfl
    exact hfirst.compose ((ih h.2).moves scope hscope labels)

theorem call {callee : Callee} (hcallee : callee.Within shape.known)
    (heffect : ∀ scope ∈ shape.scope, effect scope (.call callee) = some (taken, left)) :
    shape.Renames [.call callee] [.call callee] taken left :=
  ⟨fun _ => .call hcallee .nil, fun scope hscope _ => .effect (heffect scope hscope)⟩

theorem localGet (h : shape.Names name name') :
    shape.Renames [.localGet name] [.localGet name'] 0 1 :=
  ⟨fun _ => .localGet h.reads .nil, fun scope hscope _ =>
    .effect (effect_localGet (h.there scope hscope))⟩

theorem localSet (h : shape.Names name name') :
    shape.Renames [.localSet name] [.localSet name'] 1 0 :=
  ⟨fun _ => .localSet h.writes .nil, fun scope hscope _ =>
    .effect (effect_localSet (h.there scope hscope))⟩

theorem cond {yields : Bool} (h : shape.Renames first first' 0 (yielded yields))
    (h' : shape.Renames second second' 0 (yielded yields)) :
    shape.Renames [.cond yields first second] [.cond yields first' second'] 1
      (yielded yields) :=
  ⟨fun labels => .cond (h.renamed (labels + 1)) (h'.renamed (labels + 1)) .nil,
    fun scope hscope _ => .cond (h.moves scope hscope _) (h'.moves scope hscope _)⟩

theorem storeWord (hname : shape.Names name name') (offset : UInt32)
    (h : shape.Renames first first' 0 1) :
    shape.Renames (Lowering.storeWord name offset first)
      (Lowering.storeWord name' offset first') 0 0 :=
  ((localGet hname).append h).append (plain _ rfl)

theorem allocation : shape.Renames (static size) (static size) 0 1 := by
  have hpages : shape.Renames pagesBelowHead pagesBelowHead 0 1 := plain _ rfl
  have hgrow : shape.Renames
      (pagesBelowHead ++
        [.memorySize, .sub, .memoryGrow, .const (-1), .numeric .eq, .when [.unreachable]])
      (pagesBelowHead ++
        [.memorySize, .sub, .memoryGrow, .const (-1), .numeric .eq, .when [.unreachable]]) 0 0 :=
    hpages.append ((plain [.memorySize, .sub, .memoryGrow, .const (-1), .numeric .eq] rfl).append
      (cond (plain _ rfl) nil))
  have hcheck : shape.Renames growToHead growToHead 0 0 :=
    hpages.append ((plain [.memorySize, .numeric .gtU] rfl).append (cond hgrow nil))
  exact (plain (loadHead ++ [.constU heapHeadAddress] ++ loadHead ++
    [.constU size, .add, .store 0]) rfl).append hcheck

end Renames

end Shape

/-! ### Notes -/

/-- The notes made between two points of lowering: the helpers and intrinsics of some calls. The
functions of the source among them are functions of the unit. -/
structure Notes (context : Context) (start later : Progress) (calls : List Callee) : Prop where
  helpers : ∀ helper, helper ∈ later.helpers ↔ helper ∈ start.helpers ∨ .helper helper ∈ calls
  intrinsics : ∀ intrinsic,
    intrinsic ∈ later.intrinsics ↔ intrinsic ∈ start.intrinsics ∨ .intrinsic intrinsic ∈ calls
  users : ∀ name, .user name ∈ calls → name ∈ context.callables

namespace Notes

variable {context : Context} {start between later : Progress} {calls calls' : List Callee}

theorem nil (context : Context) (start : Progress) : Notes context start start [] :=
  ⟨by simp, by simp, by simp⟩

theorem append (h : Notes context start between calls) (h' : Notes context between later calls') :
    Notes context start later (calls ++ calls') where
  helpers helper := by rw [h'.helpers, h.helpers, mem_append, or_assoc]
  intrinsics intrinsic := by rw [h'.intrinsics, h.intrinsics, mem_append, or_assoc]
  users name hname := (mem_append.1 hname).elim (h.users name) (h'.users name)

theorem congr (h : Notes context start later calls)
    (hsame : ∀ callee, callee ∈ calls' ↔ callee ∈ calls) : Notes context start later calls' where
  helpers helper := by rw [h.helpers, hsame]
  intrinsics intrinsic := by rw [h.intrinsics, hsame]
  users name hname := h.users name ((hsame _).1 hname)

theorem helper (h : Notes context start later []) :
    Notes context start { later with helpers := later.helpers.insert called } [.helper called] where
  helpers other := by
    rw [mem_insert_iff, h.helpers]
    simp [or_comm]
  intrinsics intrinsic := by
    rw [h.intrinsics]
    simp
  users name hname := by simp at hname

end Notes

/-- The calls in what a step gives. -/
class Calling (α : Type) where
  calls : α → List Callee

instance (priority := low) noCalls {α : Type} : Calling α := ⟨fun _ => []⟩

instance : Calling Instr := ⟨callees⟩

instance : Calling Code := ⟨allCallees⟩

instance : Calling (String × Code) := ⟨fun reserved => allCallees reserved.2⟩

/-! ### Steps -/

/-- The context with index checks on or off. -/
def Context.checking (context : Context) (checks : Bool) : Context :=
  { context with config := context.config.checking checks }

/-- Two lowerings of one source. The temporaries of the second have numbers that are `offset`
higher, and only the first one has index checks if the second computes addresses in place. -/
structure Versions where
  offset : Nat
  context : Context
  inlines : Bool
  /-- Whether the source is known to be small. -/
  small : Prop
  room : small → context.env.Room context.config
  /-- The number of parameters of functions, where it is known that calls pass as many words. -/
  arity : Option (String → Nat) := none

namespace Versions

variable (v : Versions) {site : CallSite}

def first : Context := v.context.checking (v.inlines || v.context.config.listBoundsCheck)

def second : Context := v.context.checking (!v.inlines && v.context.config.listBoundsCheck)

def shifted (offset : Nat) (context : Context) (arity : Option (String → Nat) := none) : Versions :=
  { offset, context, inlines := false, small := False, room := False.elim, arity }

/-- Lowerings of which only the first one has index checks. -/
def unchecked (context : Context) : Versions :=
  { offset := 0, context, inlines := true, small := False, room := False.elim }

/-- An extent that is small if the source is. -/
def Small (extent : Extent) : Prop := v.small → extent.Small v.context.config

/-- Calls that pass a word for every parameter, if that is known. -/
def Matches (sites : List CallSite) : Prop := ∀ arity ∈ v.arity, Passes arity v.context sites

variable {v} {first second : Extent}

theorem Small.left (h : v.Small (first ++ second)) : v.Small first := fun hsmall => (h hsmall).left

theorem Small.right (h : v.Small (first ++ second)) : v.Small second :=
  fun hsmall => (h hsmall).right

variable {here rest : List CallSite}

theorem Matches.left (h : v.Matches (here ++ rest)) : v.Matches here :=
  fun arity harity => (passes_append.1 (h arity harity)).1

theorem Matches.right (h : v.Matches (here ++ rest)) : v.Matches rest :=
  fun arity harity => (passes_append.1 (h arity harity)).2

theorem Matches.unknown (h : v.arity = none) : v.Matches here := by
  intro arity harity
  rw [h] at harity
  cases harity

theorem Matches.head (h : v.Matches (site :: rest)) : v.Matches [site] :=
  Matches.left (show v.Matches ([site] ++ rest) from h)

theorem Matches.tail (h : v.Matches (site :: rest)) : v.Matches rest :=
  Matches.right (show v.Matches ([site] ++ rest) from h)

end Versions

/-- A shape with the locals of a body, the temporaries made from `start` on under their other
numbers, and the functions that both lowerings call. -/
structure Admits (v : Versions) (start : Progress) (later : Progress × Progress) (shape : Shape) :
    Prop where
  locals : ∀ name, v.context.env.isLocal name = true → shape.Names name name
  scratch : shape.naming.writes scratchLocal scratchLocal
  temps : ∀ index, start.temps ≤ index → index < later.1.temps →
    shape.Names (tempName index) (tempName (index + v.offset))
  callables : ∀ name ∈ v.context.callables, shape.known name
  helpers : ∀ helper ∈ later.1.helpers, helper ∈ later.2.helpers → shape.known helper.name
  inlines : v.inlines = true → shape.naming.mode.inlines
  scope : ∀ scope ∈ shape.scope, scope.hasLocal scratchLocal = true ∧
    ∃ arity ∈ v.arity, Links arity v.context.callables later.1 scope.typeOf

section Admits

variable {v : Versions} {start : Progress} {shape : Shape}

/-- A shape that admits what was used later admits what was used before. -/
theorem Admits.within {middle : Progress × Progress} (h : Admits v start later shape)
    (hwithin : middle.1.Within later.1) (hwithin' : middle.2.Within later.2) :
    Admits v start middle shape where
  locals := h.locals
  scratch := h.scratch
  temps index hstart hindex := h.temps index hstart (Nat.lt_of_lt_of_le hindex hwithin.temps)
  callables := h.callables
  helpers helper hmem hmem' := h.helpers helper (hwithin.helpers hmem) (hwithin'.helpers hmem')
  inlines := h.inlines
  scope scope hscope := by
    obtain ⟨hscratch, arity, harity, hlinks⟩ := h.scope scope hscope
    exact ⟨hscratch, arity, harity, hlinks.within hwithin⟩

theorem Admits.after {middle : Progress} (h : Admits v start later shape)
    (hwithin : start.Within middle) : Admits v middle later shape :=
  { h with temps := fun index hmiddle => h.temps index (Nat.le_trans hwithin.temps hmiddle) }

theorem admits_any (v : Versions) (start : Progress) (later : Progress × Progress) :
    Admits v start later .any :=
  ⟨fun _ _ => ⟨trivial, trivial, nofun⟩, trivial, fun _ _ _ => ⟨trivial, trivial, nofun⟩,
    fun _ _ => trivial, fun _ _ _ => trivial, fun _ => trivial, nofun⟩

theorem Admits.setScratch (h : Admits v start later shape) :
    shape.Renames [.localSet scratchLocal] [.localSet scratchLocal] 1 0 :=
  ⟨fun _ => .localSet h.scratch .nil, fun scope hscope _ =>
    .effect (effect_localSet (h.scope scope hscope).1)⟩

end Admits

/-- Progress of both lowerings. The second one has the helpers of the first, apart from the element
address if that is computed in place. -/
structure Progress.Behind (v : Versions) (progress progress' : Progress) : Prop where
  temps : progress'.temps = progress.temps + v.offset
  helpers : ∀ helper ∈ progress.helpers,
    helper ∈ progress'.helpers ∨ (v.inlines = true ∧ helper = .listElementAddress)
  earlier : v.inlines = true → progress'.helpers ⊆ progress.helpers

section Behind

variable {offset : Nat} {context : Context} {progress progress' : Progress}
  {arity : Option (String → Nat)}

theorem Progress.Behind.of_subset (htemps : progress'.temps = progress.temps + offset)
    (h : progress.helpers ⊆ progress'.helpers) :
    progress.Behind (.shifted offset context arity) progress' :=
  ⟨htemps, fun _ hmem => .inl (h hmem), fun h => absurd h Bool.false_ne_true⟩

theorem Progress.Behind.subset (h : progress.Behind (.shifted offset context arity) progress') :
    progress.helpers ⊆ progress'.helpers :=
  fun helper hmem => (h.helpers helper hmem).resolve_right fun he => Bool.false_ne_true he.1

end Behind

/-- Two outcomes of lowering: the same failure, which is a fault if the source is small, or values
that are related in every shape that admits what both used. The notes of the first, with those of
pending calls, are the calls of its value. -/
inductive Renumbering {α : Type} [Calling α] (v : Versions) (pending : List Callee)
    (related : Shape → α → α → Prop) (here : Progress × Progress) :
    Except Failure α × Progress → Except Failure α × Progress → Prop
  | ok {value value' : α} {later later' : Progress} (hwithin : here.1.Within later)
      (hwithin' : here.2.Within later') (hbehind : later.Behind v later')
      (hnotes : ∀ base, Notes v.context base here.1 pending →
        Notes v.context base later (Calling.calls value))
      (hrelated : ∀ shape, Admits v here.1 (later, later') shape → related shape value value') :
      Renumbering v pending related here (.ok value, later) (.ok value', later')
  | error (failure : Failure) (later later' : Progress)
      (hfault : v.small → ∃ fault, failure = .fault fault) :
      Renumbering v pending related here (.error failure, later) (.error failure, later')

/-- Two steps that fail alike or give related values. -/
def Renumbers {α : Type} [Calling α] (v : Versions) (pending : List Callee) (step step' : Lower α)
    (related : Shape → α → α → Prop) : Prop :=
  ∀ progress progress', progress.Behind v progress' →
    Renumbering v pending related (progress, progress') (step.run v.first progress)
      (step'.run v.second progress')

/-- Values that do not depend on the version. -/
def Unchanged {α : Type} (_shape : Shape) (value value' : α) : Prop := value = value'

section Rules

variable {α β : Type} [Calling α] [Calling β] {v : Versions} {pending before : List Callee}
  {step step' : Lower α} {next next' : α → Lower β} {between : Shape → α → α → Prop}
  {related : Shape → β → β → Prop}

/-- One step after another, where the calls given to the second follow from those of the first. -/
theorem Renumbers.sequence {given : α → List Callee} (h : Renumbers v before step step' between)
    (hgiven : ∀ value start middle, (∀ base, Notes v.context base start before →
        Notes v.context base middle (Calling.calls value)) →
      ∀ base, Notes v.context base start pending → Notes v.context base middle (given value))
    (hnext : ∀ {value value'}, between .any value value' →
      Renumbers v (given value) (next value) (next' value') fun shape result result' =>
        between shape value value' → related shape result result') :
    Renumbers v pending (step >>= next) (step' >>= next') related := by
  intro progress progress' hbehind
  have hfirst := h progress progress' hbehind
  rw [run_bind, run_bind]
  generalize step.run v.first progress = outcome, step'.run v.second progress' = outcome' at hfirst
  cases hfirst with
  | error failure later later' hfault => exact .error failure later later' hfault
  | @ok value value' middle middle' hwithin hwithin' hmiddle hnotes hbetween =>
    have hsecond := hnext (hbetween .any (admits_any ..)) middle middle' hmiddle
    dsimp only
    generalize (next value).run v.first middle = outcome,
      (next' value').run v.second middle' = outcome' at hsecond
    cases hsecond with
    | error failure later later' hfault => exact .error failure later later' hfault
    | ok hlater hlater' hbehind hnotes' hrelated =>
      refine .ok (hwithin.trans hlater) (hwithin'.trans hlater') hbehind
        (fun base hbase => hnotes' base (hgiven value _ _ hnotes base hbase)) fun shape hshape => ?_
      exact hrelated shape (hshape.after hwithin) (hbetween shape (hshape.within hlater hlater'))

/-- One step after another, where the calls of the first are all that is pending. -/
theorem Renumbers.andThen (h : Renumbers v pending step step' between)
    (hnext : ∀ {value value'}, between .any value value' →
      Renumbers v (Calling.calls value) (next value) (next' value') fun shape result result' =>
        between shape value value' → related shape result result') :
    Renumbers v pending (step >>= next) (step' >>= next') related :=
  h.sequence (fun _ _ _ hnotes => hnotes) hnext

/-- One step after another, where the calls of the first one are pending for the second. -/
theorem Renumbers.bind (h : Renumbers v [] step step' between)
    (hnext : ∀ {value value'}, between .any value value' →
      Renumbers v (pending ++ Calling.calls value) (next value) (next' value')
        fun shape result result' => between shape value value' → related shape result result') :
    Renumbers v pending (step >>= next) (step' >>= next') related :=
  h.sequence (fun _ start _ hnotes _ hbase => hbase.append (hnotes start (.nil _ _))) hnext

/-- Only which calls are pending counts, and the values may be related in a weaker way. -/
theorem Renumbers.imp {related : Shape → α → α → Prop} (h : Renumbers v before step step' between)
    (hsame : ∀ callee, callee ∈ before ↔ callee ∈ pending)
    (himp : ∀ shape value value', between shape value value' → related shape value value') :
    Renumbers v pending step step' related := by
  intro progress progress' hbehind
  have hresult := h progress progress' hbehind
  generalize step.run v.first progress = outcome, step'.run v.second progress' = outcome' at hresult
  cases hresult with
  | error failure later later' hfault => exact .error failure later later' hfault
  | ok hwithin hwithin' hlater hnotes hrelated =>
    exact .ok hwithin hwithin' hlater (fun base hbase => hnotes base (hbase.congr hsame))
      fun shape hshape => himp shape _ _ (hrelated shape hshape)

theorem Renumbers.weaken {related : Shape → α → α → Prop}
    (h : Renumbers v pending step step' between)
    (himp : ∀ shape value value', between shape value value' → related shape value value') :
    Renumbers v pending step step' related :=
  h.imp (fun _ => .rfl) himp

theorem Renumbers.congr (h : Renumbers v before step step' between)
    (hsame : ∀ callee, callee ∈ before ↔ callee ∈ pending) :
      Renumbers v pending step step' between :=
  h.imp hsame fun _ _ _ => id

theorem Renumbers.bindEq (h : Renumbers v [] step step' Unchanged)
    (hnext : ∀ value, Renumbers v (pending ++ Calling.calls value) (next value)
      (next' value) related) :
    Renumbers v pending (step >>= next) (step' >>= next') related := by
  refine h.bind fun {value value'} hvalue => ?_
  obtain rfl : value = value' := hvalue
  exact (hnext value).weaken fun _ _ _ hrelated _ => hrelated

/-- A value ends a step if its calls are those pending. -/
theorem Renumbers.pure {value value' : α}
    (hcalls : ∀ callee, callee ∈ Calling.calls value ↔ callee ∈ pending)
    (h : ∀ {here : Progress × Progress} {shape}, Admits v here.1 here shape →
      between shape value value') :
    Renumbers v pending (Pure.pure value) (Pure.pure value') between :=
  fun _ _ hbehind => .ok (.refl _) (.refl _) hbehind (fun _ hbase => hbase.congr hcalls) fun _ => h

theorem Renumbers.fail {fault : Fault} :
    Renumbers v pending (Lower.fail fault) (Lower.fail fault) related :=
  fun _ _ _ => .error _ _ _ fun _ => ⟨_, rfl⟩

section Results

variable {γ : Type} {next next' : γ → Lower β}

theorem Renumbers.result {result : Except Failure γ}
    (hfits : v.small → ∀ overflow, result ≠ .error (.overflow overflow))
    (hnext : ∀ value, Renumbers v pending (next value) (next' value) related) :
    Renumbers v pending (Lower.ofResult result >>= next) (Lower.ofResult result >>= next')
      related := by
  intro progress progress' hbehind
  match result with
  | .error (.fault fault) => exact .error _ progress progress' fun _ => ⟨fault, rfl⟩
  | .error (.overflow overflow) =>
    exact .error _ progress progress' fun hsmall => absurd rfl (hfits hsmall overflow)
  | .ok value => exact hnext value progress progress' hbehind

theorem Renumbers.found {result : Except Fault γ}
    (hnext : ∀ value, result = .ok value → Renumbers v pending (next value) (next' value) related) :
    Renumbers v pending (Lower.ofLookup result >>= next) (Lower.ofLookup result >>= next')
      related := by
  intro progress progress' hbehind
  cases result with
  | error fault => exact .error _ progress progress' fun _ => ⟨fault, rfl⟩
  | ok value => exact hnext value rfl progress progress' hbehind

theorem Renumbers.checked {result : Checked γ} (hfits : v.small → ∃ value, result = .ok value)
    (hnext : ∀ value, result = .ok value → Renumbers v pending (next value) (next' value) related) :
    Renumbers v pending (Lower.ofChecked result >>= next) (Lower.ofChecked result >>= next')
      related := by
  intro progress progress' hbehind
  cases result with
  | error overflow =>
    refine .error _ progress progress' fun hsmall => ?_
    obtain ⟨_, hok⟩ := hfits hsmall
    cases hok
  | ok value => exact hnext value rfl progress progress' hbehind

end Results

theorem Renumbers.reads {next next' : Context → Lower β}
    (h : Renumbers v pending (next v.first) (next' v.second) related) :
    Renumbers v pending (Lower.context >>= next) (Lower.context >>= next') related :=
  h

theorem bigNumbers_renumbers : Renumbers v [] bigNumbers bigNumbers Unchanged :=
  .reads (.pure (fun _ => Iff.rfl) fun _ => rfl)

/-- The second version numbers a temporary from its own offset on. -/
theorem newTemp_renumbers : Renumbers v [] newTemp newTemp Shape.Names := by
  intro progress progress' hbehind
  have hwithin : ∀ progress : Progress,
      progress.Within { progress with temps := progress.temps + 1 } :=
    fun _ => ⟨Nat.le_succ _, fun _ h => h, fun _ h => h⟩
  refine .ok (hwithin _) (hwithin _) ⟨?_, hbehind.helpers, hbehind.earlier⟩
    (fun _ hbase => ⟨hbase.helpers, hbase.intrinsics, hbase.users⟩) fun shape hshape => ?_
  · show progress'.temps + 1 = progress.temps + 1 + v.offset
    rw [hbehind.temps]
    omega
  · rw [hbehind.temps]
    exact hshape.temps progress.temps (Nat.le_refl _) (Nat.lt_succ_self _)

theorem intrinsic_renumbers (called : Intrinsic) :
    Renumbers v [] (intrinsic called) (intrinsic called) fun shape i i' =>
      shape.Renames [i] [i'] called.arity
        (Validate.resultCount (CompiledUnit.intrinsicType called)) := by
  intro progress progress' hbehind
  refine .ok ⟨Nat.le_refl _, fun _ h => h, fun _ h => mem_insert_of_mem h⟩
    ⟨Nat.le_refl _, fun _ h => h, fun _ h => mem_insert_of_mem h⟩
    ⟨hbehind.temps, hbehind.helpers, hbehind.earlier⟩ (fun base hbase => ?_)
    fun shape hshape => .call trivial fun scope hscope => ?_
  rotate_left
  · obtain ⟨-, arity, -, hlinks⟩ := hshape.scope scope hscope
    rw [effect, hlinks.intrinsics called mem_insert_self]
    rfl
  refine ⟨fun other => ?_, fun other => ?_, fun name hname => ?_⟩
  · rw [hbase.helpers]
    simp [Calling.calls, Instr.callIntrinsic, callees]
  · rw [mem_insert_iff, hbase.intrinsics]
    simp [Calling.calls, Instr.callIntrinsic, callees, or_comm]
  · simp [Calling.calls, Instr.callIntrinsic, callees] at hname

theorem Admits.helper_effect {start : Progress} {shape : Shape} (h : Admits v start later shape)
    {called : Helper} (hcalled : called ∈ later.1.helpers) : ∀ scope ∈ shape.scope,
      effect scope (.call (.helper called)) = some ((called.function 0).params.length, 1) := by
  intro scope hscope
  obtain ⟨-, arity, -, hlinks⟩ := h.scope scope hscope
  rw [effect, hlinks.helpers called hcalled]
  rfl

/-- Both versions call a helper and note it. -/
theorem helper_renumbers : Renumbers v [] (helper called) (helper called) fun shape i i' =>
      shape.Renames [i] [i'] (called.function 0).params.length 1 := by
  intro progress progress' hbehind
  refine .ok ⟨Nat.le_refl _, fun _ h => mem_insert_of_mem h, fun _ h => h⟩
    ⟨Nat.le_refl _, fun _ h => mem_insert_of_mem h, fun _ h => h⟩
    ⟨hbehind.temps, fun other hmem => ?_, fun hinlines other hmem => ?_⟩ (fun base => ?_)
    fun shape hshape => ?_
  · rcases mem_insert_iff.1 hmem with rfl | hmem
    · exact .inl mem_insert_self
    · exact (hbehind.helpers other hmem).imp_left mem_insert_of_mem
  · rcases mem_insert_iff.1 hmem with rfl | hmem
    · exact mem_insert_self
    · exact mem_insert_of_mem (hbehind.earlier hinlines hmem)
  · exact .helper called
  · exact .call (hshape.helpers called mem_insert_self mem_insert_self)
      (hshape.helper_effect mem_insert_self)

/-- A call that passes what its routine takes stays as it is. -/
theorem userCall_renumbers (hsite : v.Matches [(name, count)]) :
    Renumbers v [] (userCall name) (userCall name) fun shape i i' =>
      shape.Renames [i] [i'] count 1 := by
  refine .reads ?_
  have hcallables : v.first.callables = v.context.callables ∧
      v.second.callables = v.context.callables := ⟨rfl, rfl⟩
  rw [hcallables.1, hcallables.2]
  split
  · next hname =>
    have hmem : name ∈ v.context.callables := by simpa using hname
    intro progress progress' hbehind
    refine .ok (.refl _) (.refl _) hbehind (fun base hbase => ?_) fun shape hshape =>
      .call (hshape.callables name hmem) fun scope hscope => ?_
    rotate_left
    · obtain ⟨-, arity, harity, hlinks⟩ := hshape.scope scope hscope
      rw [effect, hlinks.callables name hmem,
        hsite arity harity (name, count) (mem_singleton_self _) hmem]
      rfl
    refine ⟨fun other => ?_, fun other => ?_, fun other hother => ?_⟩
    · rw [hbase.helpers]
      simp [Calling.calls, Instr.callUser, callees]
    · rw [hbase.intrinsics]
      simp [Calling.calls, Instr.callUser, callees]
    · obtain rfl : other = name := by
        simpa [Calling.calls, Instr.callUser, callees] using hother
      exact hmem
  · exact .fail

end Rules

/-- A step whose listings are the same under other names, and leave a number of words. -/
def RenumbersWords (v : Versions) (step step' : Lower Code) (count : Nat) : Prop :=
  Renumbers v [] step step' fun shape code code' => shape.Renames code code' 0 count

abbrev RenumbersCode (v : Versions) (step step' : Lower Code) : Prop :=
  RenumbersWords v step step' 1

abbrev Renumbered (v : Versions) (step : Lower Code) : Prop := RenumbersCode v step step

/-! ### Expressions -/

section Exprs

open Shape (Renames)

variable {v : Versions} {parts : String → Lower Code} (ty : Ty)

attribute [local simp] Calling.calls allCallees callees allCallees_append
  Instr.constU Instr.add Instr.sub Instr.mul Instr.choose Instr.when or_assoc or_comm or_left_comm

@[simp] theorem allCallees_storeWord (address : String) (offset : UInt32) (value : Code) :
    allCallees (storeWord address offset value) = allCallees value := by
  simp [storeWord]

theorem allocate_renumbers :
    Renumbers v [] (allocate size) (allocate size) fun shape reserved reserved' =>
      shape.Names reserved.1 reserved'.1 ∧ shape.Renames reserved.2 reserved'.2 0 0 := by
  refine newTemp_renumbers.bind fun _ => .pure (fun _ => Iff.rfl) fun _ htemp => ⟨htemp, ?_⟩
  exact (Renames.allocation size).append (.localSet htemp)

theorem storeConstants_renumbers (temp temp' : String) (index : Nat) (words : List Word)
    (h : v.small → index + words.length < 2 ^ 30) :
    Renumbers v [] (storeConstants temp index words) (storeConstants temp' index words)
      fun shape code code' => shape.Names temp temp' → shape.Renames code code' 0 0 := by
  induction words generalizing index with
  | nil => exact .pure (by simp) fun _ _ => .nil
  | cons word rest ih =>
    rw [length_cons] at h
    refine .checked (fun hsmall => exists_wordPlace (by have := h hsmall; omega)) fun place _ => ?_
    refine (ih (index + 1) fun hsmall => by have := h hsmall; omega).bind fun _ => ?_
    exact .pure (by simp) fun _ hcode htemp =>
      (Renames.storeWord htemp place (.plain _ rfl)).append (hcode htemp)

theorem constantBlock_renumbers {head : Word} {rest : List Word}
    (h : v.small → rest.length + 1 < 2 ^ 30) :
      Renumbered v (constantBlock Block.stringSize (head :: rest)) := by
  have hsize : v.small → ∃ size, Block.stringSize (UInt32.ofNat rest.length) = .ok size :=
    fun hsmall => exists_size
      (Nat.lt_of_le_of_lt (Nat.add_le_add_right (toNat_ofNat_le _) 1) (h hsmall))
  refine .checked hsize fun size _ => (allocate_renumbers size).bind ?_
  rintro ⟨temp, reserved⟩ ⟨temp', reserved'⟩ -
  have hstored := storeConstants_renumbers temp temp' 0 (head :: rest) fun hsmall => by
    rw [Nat.zero_add]
    exact h hsmall
  refine hstored.bind fun _ => ?_
  refine .pure (by simp) fun _ hstored ⟨htemp, hreserved⟩ => ?_
  exact (hreserved.append (hstored htemp)).append (.localGet htemp)

theorem literal_renumbers {value : Literal} (h : v.small → value.Fits v.context.config) :
    Renumbered v (literal value) := by
  cases value with
  | num value =>
    show Renumbered v
      (if v.context.config.bigNumbers then constantBlock Block.bigintSize
        (bigintWords value) else nativeNumber value)
    split
    · next hbig =>
      exact constantBlock_renumbers fun hsmall => by
        rw [length_map]
        exact h hsmall hbig
    · rw [nativeNumber]
      split
      · exact .pure (by simp) fun _ => .plain _ rfl
      · exact .fail
  | bool value => exact .pure (by simp) fun _ => .plain _ rfl
  | none => exact .pure (by simp) fun _ => .plain _ rfl
  | string text =>
    exact constantBlock_renumbers fun hsmall => by
      rw [length_map]
      exact h hsmall

theorem nameValue_renumbers (name : String) : Renumbered v (nameValue name) := by
  refine .reads ?_
  have henv : v.first.env = v.context.env ∧ v.second.env = v.context.env := ⟨rfl, rfl⟩
  rw [henv.1, henv.2]
  dsimp only
  split
  · next hlocal => exact .pure (by simp) fun hshape => .localGet (hshape.locals name hlocal)
  · refine .result (fun hsmall => (v.room hsmall).globalAddress name) fun _ => ?_
    exact .pure (by simp) fun _ => .plain _ rfl

theorem requiredClass_renumbers :
    Renumbers v [] (requiredClass ty) (requiredClass ty) fun _ cls cls' =>
      cls = cls' ∧ ty.className? = some cls := by
  rw [requiredClass]
  split
  · next hname => exact .pure (by simp) fun _ => ⟨rfl, hname⟩
  · exact .fail

section Operators

variable {left right args object key : Lower Code}
  (op : BinaryOp) (keyTy : Ty) {objectTy : Ty}

theorem call_renumbers (hsite : v.Matches [(name, count)])
    (hargs : RenumbersWords v args args count) : Renumbered v (call name args) := by
  refine hargs.bind fun _ => (userCall_renumbers hsite).bind fun _ => ?_
  exact .pure (by simp) fun _ hi hcode => hcode.andThen hi

theorem methodCall_renumbers {method : String}
    (hsite : v.Matches (objectTy.className?.map fun cls => (mangled cls method, count + 1)).toList)
    (hobject : Renumbered v object) (hargs : RenumbersWords v args args count) :
    Renumbered v (methodCall objectTy method object args) := by
  refine (requiredClass_renumbers objectTy).bind fun {cls cls'} hcls => ?_
  obtain ⟨rfl, hcls⟩ := hcls
  rw [hcls, Nat.add_comm] at hsite
  refine hobject.bind fun _ => hargs.bind fun _ => ?_
  refine (userCall_renumbers hsite).bind fun _ => ?_
  exact .pure (by simp) fun _ hi hwords hcode _ => (hcode.append hwords).andThen hi

theorem fieldLookup_renumbers (objectTy : Ty) (field : String) (hobject : Renumbered v object) :
    Renumbered v (fieldLookup objectTy field object) := by
  refine (requiredClass_renumbers objectTy).bind fun {cls cls'} hcls => .reads ?_
  obtain ⟨rfl, -⟩ := hcls
  refine .found fun word hword => hobject.bind fun _ => ?_
  refine .checked (fun hsmall => (v.room hsmall).instanceField hword) fun _ _ => ?_
  exact .pure (by simp) fun _ hcode _ => hcode.append (.plain _ rfl)

theorem bothOperands_renumbers (hleft : Renumbered v left) (hright : Renumbered v right) :
    RenumbersWords v (bothOperands left right) (bothOperands left right) 2 := by
  refine hleft.bind fun _ => hright.bind fun _ => ?_
  exact .pure (by simp) fun _ hsecond hfirst => hfirst.append hsecond

theorem listConcat_renumbers (leftEmpty rightEmpty : Bool) (hleft : Renumbered v left)
    (hright : Renumbered v right) : Renumbered v (listConcat leftEmpty rightEmpty left right) := by
  rw [listConcat]
  split
  · have hcopy : ∀ {source}, Renumbered v source →
        Renumbered v (do return (← source) ++ [← helper .listCopy]) := by
      intro source hsource
      refine hsource.bind fun _ => (helper_renumbers .listCopy).bind fun _ => ?_
      exact .pure (by simp) fun _ hi hcode => hcode.append hi
    dsimp only
    split
    · exact hcopy hleft
    · exact hcopy hright
  · refine newTemp_renumbers.bind fun _ => ?_
    refine newTemp_renumbers.bind fun _ => ?_
    refine hright.bind fun _ => hleft.bind fun _ => ?_
    refine (helper_renumbers .listConcat).bind fun _ => ?_
    refine .pure (by simp) fun _ hi hfirst hsecond hleftTemp hrightTemp => ?_
    have hoperands := ((hsecond.append (.localSet hrightTemp)).append hfirst).append
      (.localSet hleftTemp)
    exact hoperands.append ((Renames.localGet hleftTemp).append
      ((Renames.localGet hrightTemp).append hi))

theorem stringOp_renumbers (ty : Ty) (hleft : Renumbered v left) (hright : Renumbered v right) :
    Renumbered v (stringOp op ty left right) := by
  refine (bothOperands_renumbers hleft hright).bind fun _ => ?_
  split
  · refine (helper_renumbers .strConcat).bind fun _ => ?_
    exact .pure (by simp) fun _ hi hcode => hcode.append hi
  · refine (helper_renumbers .strEq).bind fun _ => ?_
    exact .pure (by simp) fun _ hi hcode => hcode.append hi
  · refine (helper_renumbers .strEq).bind fun _ => .pure (by simp) fun _ hi hcode => ?_
    exact hcode.append (Renames.append hi (.plain [.eqz] rfl))
  · exact .fail

theorem bignumOp_signature {op : BinaryOp} {called : Intrinsic} (h : bignumOp op = some called) :
    called.arity = 2 ∧ Validate.resultCount (CompiledUnit.intrinsicType called) = 1 := by
  cases op <;> cases h <;> exact ⟨rfl, rfl⟩

theorem wordOp_renumbers (ty : Ty) (hleft : Renumbered v left) (hright : Renumbered v right) :
    Renumbered v (wordOp op ty left right) := by
  refine (bothOperands_renumbers hleft hright).bind fun _ => ?_
  refine bigNumbers_renumbers.bindEq fun big => ?_
  split
  · next called hcalled =>
    have hop : bignumOp op = some called := by
      split at hcalled
      · exact hcalled
      · cases hcalled
    obtain ⟨harity, hresult⟩ := bignumOp_signature hop
    refine (intrinsic_renumbers called).bind fun _ => ?_
    rw [harity, hresult]
    exact .pure (by simp) fun _ hi hcode => hcode.append hi
  · exact .pure (by simp) fun _ hcode => hcode.append (.plain _ rfl)

theorem binary_renumbers (leftTy : Ty) (leftEmpty rightEmpty : Bool)
    (hleft : Renumbered v left) (hright : Renumbered v right) :
    Renumbered v (binary op leftTy leftEmpty rightEmpty left right) := by
  unfold binary
  split
  · refine hleft.bind fun _ => hright.bind fun _ => ?_
    exact .pure (by simp) fun _ hsecond hfirst => hfirst.append (.cond hsecond (.plain _ rfl))
  · refine hleft.bind fun _ => hright.bind fun _ => ?_
    exact .pure (by simp) fun _ hsecond hfirst => hfirst.append (.cond (.plain _ rfl) hsecond)
  · refine (bothOperands_renumbers hleft hright).bind fun _ => ?_
    exact .pure (by simp) fun _ hcode => hcode.append (.plain _ rfl)
  · split
    · split
      · exact listConcat_renumbers _ _ hleft hright
      · exact .fail
    · exact stringOp_renumbers _ _ hleft hright
    · exact wordOp_renumbers _ _ hleft hright

theorem unary_renumbers (op : UnaryOp) (hoperand : Renumbered v left) :
    Renumbered v (unary op left) := by
  cases op with
  | neg =>
    refine bigNumbers_renumbers.bindEq fun big => ?_
    split
    · have hzero : v.small → (Literal.num 0).Fits v.context.config := fun _ _ => by decide
      refine (literal_renumbers hzero).bind fun _ => ?_
      refine hoperand.bind fun _ => (intrinsic_renumbers .bignumSub).bind fun _ => ?_
      exact .pure (by simp) fun _ hi hcode hzero => (hzero.append hcode).append hi
    · refine hoperand.bind fun _ => .pure (by simp) fun _ hcode => ?_
      exact ((Renames.plain _ rfl).append hcode).append (.plain _ rfl)
  | not => exact hoperand.bind fun _ => .pure (by simp) fun _ hcode => hcode.append (.plain _ rfl)

theorem printer_renumbers :
    Renumbers v [] (printer ty) (printer ty) fun _ print print' => print = print' ∧
      print.arity = 1 ∧ Validate.resultCount (CompiledUnit.intrinsicType print) = 1 := by
  unfold printer
  split
  · refine bigNumbers_renumbers.bindEq fun big => .pure (by simp) fun _ => ?_
    split <;> exact ⟨rfl, rfl, rfl⟩
  iterate 3 exact .pure (by simp) fun _ => ⟨rfl, rfl, rfl⟩
  exact .fail

theorem lengthOf_renumbers : Renumbers v [] (lengthOf ty) (lengthOf ty) fun shape code code' =>
      shape.Renames code code' 1 1 := by
  unfold lengthOf
  split
  iterate 4 exact .pure (by simp) fun _ => .plain _ rfl
  exact .fail

theorem boxed_renumbers (code code' : Code) :
    Renumbers v (allCallees code) (boxed code) (boxed code') fun shape result result' =>
      shape.Renames code code' 0 1 → shape.Renames result result' 0 1 := by
  refine bigNumbers_renumbers.bindEq fun big => ?_
  split
  · exact (helper_renumbers _).bind fun _ => .pure (by simp) fun _ hi hcode => hcode.append hi
  · exact .pure (by simp) fun _ hcode => hcode

theorem builtin1_renumbers (name : Builtin1) (argTy : Ty) (harg : Renumbered v args) :
    Renumbered v (builtin1 name argTy args) := by
  cases name with
  | print =>
    refine (printer_renumbers argTy).bind ?_
    rintro print _ ⟨rfl, harity, hresult⟩
    refine harg.bind fun _ => (intrinsic_renumbers print).bind fun _ => ?_
    rw [harity, hresult]
    exact .pure (by simp) fun _ hi hcode _ => hcode.append hi
  | abs =>
    refine bigNumbers_renumbers.bindEq fun big => ?_
    split
    · exact .fail
    · refine harg.bind fun _ => (intrinsic_renumbers .abs).bind fun _ => ?_
      exact .pure (by simp) fun _ hi hcode => hcode.append hi
  | len =>
    refine harg.bind fun _ => (lengthOf_renumbers argTy).bind fun _ => ?_
    refine ((boxed_renumbers _ _).weaken fun _ _ _ hboxed hlength hcode => ?_).congr (by simp)
    exact hboxed (hcode.append hlength)

theorem builtin2_renumbers (name : Builtin2) (hleft : Renumbered v left)
    (hright : Renumbered v right) : Renumbered v (builtin2 name left right) := by
  refine bigNumbers_renumbers.bindEq fun big => ?_
  split
  · exact .fail
  · refine (bothOperands_renumbers hleft hright).bind fun _ => ?_
    refine (intrinsic_renumbers _).bind fun _ => .pure (by simp) fun _ hi hcode => ?_
    cases name <;> exact hcode.append hi

theorem storeDefaults_renumbers (temp temp' : String) {fields : List FieldLayout}
    (h : v.small → ∀ field ∈ fields, field.offset.toNat < 2 ^ 20 ∧
      field.default.Fits v.context.config) :
    Renumbers v [] (storeDefaults temp fields) (storeDefaults temp' fields)
      fun shape code code' => shape.Names temp temp' → shape.Renames code code' 0 0 := by
  induction fields with
  | nil => exact .pure (by simp) fun _ _ => .nil
  | cons field rest ih =>
    have hplace : v.small → ∃ place, Block.instanceField field.offset = .ok place := by
      intro hsmall
      have hoffset := (h hsmall field (.head _)).1
      obtain ⟨place, hplace, -⟩ := @Block.exists_wordOffset field.offset (by omega)
      exact ⟨place, hplace⟩
    have hmore := ih fun hsmall other hother => h hsmall other (.tail _ hother)
    refine (literal_renumbers fun hsmall => (h hsmall field (.head _)).2).bind fun _ => ?_
    refine .checked hplace fun place _ => hmore.bind fun _ => ?_
    exact .pure (by simp) fun _ hcode hvalue htemp => (Renames.storeWord htemp place hvalue).append
      (hcode htemp)

theorem construct_renumbers {cls : String} {argCount : Nat}
    (hsite : v.Matches [(mangled cls initMethod, argCount + 1)])
    (hargs : RenumbersWords v args args argCount) : Renumbered v (construct cls argCount args) := by
  refine .reads (.found fun layout hlayout => ?_)
  have hroom : v.small → layout.Room v.context.config :=
    fun hsmall => (v.room hsmall).classLayout hlayout
  refine .checked (fun hsmall => exists_wordPlace (Nat.lt_trans (hroom hsmall).count (by decide)))
    fun size _ => (allocate_renumbers size).bind ?_
  rintro ⟨temp, reserved⟩ ⟨temp', reserved'⟩ -
  refine (storeDefaults_renumbers temp temp' fun hsmall field hfield =>
    ⟨(hroom hsmall).offsets field hfield, (hroom hsmall).defaults field hfield⟩).bind fun _ => ?_
  dsimp only
  split
  · rw [Nat.add_comm] at hsite
    refine hargs.bind fun _ => (userCall_renumbers hsite).bind fun _ => ?_
    refine .pure (by simp) fun _ hinit hcode hdefaults ⟨htemp, hreserved⟩ => ?_
    have hready := ((hreserved.append (hdefaults htemp)).append (.localGet htemp)).append hcode
    exact (hready.andThen (hinit.andThen (.plain [.drop] rfl))).append (.localGet htemp)
  · split
    · refine .pure (by simp) fun _ hdefaults ⟨htemp, hreserved⟩ => ?_
      exact (hreserved.append (hdefaults htemp)).append (.localGet htemp)
    · exact .fail

theorem indexWord_renumbers (hkey : Renumbered v key) : Renumbered v (indexWord keyTy key) := by
  refine hkey.bind fun _ => bigNumbers_renumbers.bindEq fun big => ?_
  split
  · exact (helper_renumbers _).bind fun _ => .pure (by simp) fun _ hi hcode => hcode.append hi
  · exact .pure (by simp) fun _ hcode => hcode

theorem listElement_renumbers (hobject : Renumbered v object) (hkey : Renumbered v key) :
    Renumbered v (listElement keyTy object key) := by
  refine hobject.bind fun _ => ?_
  refine (indexWord_renumbers keyTy hkey).bind fun _ => ?_
  cases hinlines : v.inlines with
  | false =>
    have hchecks : v.first.config.listBoundsCheck = v.second.config.listBoundsCheck := by
      simp [Versions.first, Versions.second, Context.checking, Config.checking, hinlines]
    refine .reads ?_
    rw [hchecks]
    split
    · refine (helper_renumbers _).bind fun _ => ?_
      exact .pure (by simp) fun _ hi hindex hlist => (hlist.append hindex).append hi
    · exact .pure (by simp) fun _ hindex hlist => (hlist.append hindex).append (.plain _ rfl)
  | true =>
    -- Only the first lowering takes note of the helper.
    have hfirst : v.first.config.listBoundsCheck = true := by
      simp [Versions.first, Context.checking, Config.checking, hinlines]
    have hsecond : v.second.config.listBoundsCheck = false := by
      simp [Versions.second, Context.checking, Config.checking, hinlines]
    refine .reads ?_
    rw [hfirst, hsecond]
    intro progress progress' hbehind
    refine .ok ⟨Nat.le_refl _, fun _ h => mem_insert_of_mem h, fun _ h => h⟩ (.refl _)
      ⟨hbehind.temps, fun other hmem => ?_, fun h _ hmem => mem_insert_of_mem
        (hbehind.earlier h hmem)⟩ (fun base hbase => ?_) fun shape hshape hindex hlist => ?_
    · rcases mem_insert_iff.1 hmem with rfl | hmem
      · exact .inr ⟨hinlines, rfl⟩
      · exact hbehind.helpers other hmem
    · exact (hbase.append ((Notes.nil _ _).helper .listElementAddress)).congr
        (by simp [Instr.callHelper])
    · have haddress : shape.Renames [.callHelper .listElementAddress] Unchecked.inlineAddress 2 1 :=
        ⟨fun _ => .address (hshape.inlines hinlines) .nil, fun scope hscope _ =>
          .effect (hshape.helper_effect mem_insert_self scope hscope)⟩
      exact (hlist.append hindex).append haddress

theorem tupleElement_renumbers (objectTy : Ty) {size : Nat} (literalKey : Option Int) (keyTy : Ty)
    (hcount : v.small → size < 2 ^ 20) (hobject : Renumbered v object) (hkey : Renumbered v key) :
    Renumbered v (tupleElement objectTy size literalKey keyTy object key) := by
  refine hobject.bind fun _ => ?_
  split
  · extract_lets place
    split
    · exact .fail
    · next hinside =>
      refine .checked (fun hsmall => exists_wordPlace (by have := hcount hsmall; omega)) fun _ _ =>
        ?_
      exact .pure (by simp) fun _ hcode => hcode.append (.plain _ rfl)
  · refine (indexWord_renumbers keyTy hkey).bind fun _ => ?_
    exact .pure (by simp) fun _ hindex hcode => (hcode.append hindex).append (.plain _ rfl)

theorem dictLookup_renumbers (hobject : Renumbered v object) (hkey : Renumbered v key) :
    Renumbered v (dictLookup keyTy object key) := by
  refine bigNumbers_renumbers.bindEq fun big => ?_
  split
  · exact .fail
  · refine hobject.bind fun _ => hkey.bind fun _ => ?_
    refine (helper_renumbers .dictGet).bind fun _ => .pure (by simp) fun _ hi hword hcode => ?_
    exact (hcode.append hword).append ((Renames.plain [_] rfl).append hi)

theorem indexed_renumbers (literalKey : Option Int) (keyTy : Ty)
    (hnodes : v.small → objectTy.nodes < 2 ^ 20) (hobject : Renumbered v object)
    (hkey : Renumbered v key) : Renumbered v (indexed objectTy literalKey keyTy object key) := by
  unfold indexed
  split
  · refine hobject.bind fun _ => ?_
    refine (indexWord_renumbers keyTy hkey).bind fun _ => ?_
    refine (helper_renumbers .strIndex).bind fun _ => ?_
    exact .pure (by simp) fun _ hi hword hcode => (hcode.append hword).append hi
  · refine (listElement_renumbers keyTy hobject hkey).bind fun _ => ?_
    exact .pure (by simp) fun _ hcode => hcode.append (.plain _ rfl)
  · next elements =>
    refine tupleElement_renumbers _ _ _ (fun hsmall => ?_) hobject hkey
    have hlength := Ty.length_le_allNodes elements
    have hfew := hnodes hsmall
    rw [Ty.nodes] at hfew
    omega
  · exact dictLookup_renumbers _ hobject hkey
  · exact .fail

end Operators

/-- Parts stored in a block go under other names with the block. -/
def RenumbersParts (v : Versions) (parts : String → Lower Code) : Prop :=
  ∀ temp temp', Renumbers v [] (parts temp) (parts temp') fun shape code code' =>
    shape.Names temp temp' → shape.Renames code code' 0 0

/-- The places that a list or dictionary reserves are counted together with its parts. -/
theorem collection_renumbers (tag : Word) {sizeOf : UInt32 → Checked UInt32}
    (hcount : v.small → count < 2 ^ 20)
    (hsize : ∀ bound : UInt32, bound.toNat + 1 < 2 ^ 29 → ∃ size, sizeOf bound = .ok size)
    (hparts : RenumbersParts v parts) : Renumbered v (collection tag count sizeOf parts) := by
  have hreserves : v.small → ∃ bound, Offset.add (UInt32.ofNat count)
      v.context.config.listGrowthSlack = .ok bound ∧ ∃ size, sizeOf bound = .ok size := by
    intro hsmall
    have hslack := (v.room hsmall).slack
    have hfew := hcount hsmall
    have hle := toNat_ofNat_le count
    obtain ⟨bound, hbound, hvalue⟩ :=
      @Offset.exists_add (UInt32.ofNat count) v.context.config.listGrowthSlack (by omega)
    exact ⟨bound, hbound, hsize bound (by omega)⟩
  refine .reads (.checked (fun hsmall => (hreserves hsmall).imp fun _ h => h.1) fun bound hbound =>
    ?_)
  have hblock : v.small → ∃ size, sizeOf bound = .ok size := by
    intro hsmall
    obtain ⟨_, hsame, hfits⟩ := hreserves hsmall
    cases hsame.symm.trans hbound
    exact hfits
  refine .checked hblock fun size _ => (allocate_renumbers size).bind ?_
  rintro ⟨temp, reserved⟩ ⟨temp', reserved'⟩ -
  refine (hparts temp temp').bind fun _ => ?_
  refine .pure (by simp [storeHeader]) fun {_ shape} _ hstored ⟨htemp, hreserved⟩ => ?_
  have hheader : shape.Renames (storeHeader temp tag (UInt32.ofNat count) bound)
      (storeHeader temp' tag (UInt32.ofNat count) bound) 0 0 :=
    ((Renames.storeWord htemp _ (.plain _ rfl)).append (.storeWord htemp _ (.plain _ rfl))).append
      (.storeWord htemp _ (.plain _ rfl))
  exact ((hreserved.append hheader).append (hstored htemp)).append (.localGet htemp)

theorem tuple_renumbers (hcount : v.small → count < 2 ^ 20) (hparts : RenumbersParts v parts) :
    Renumbered v (tuple count parts) := by
  refine .checked (fun hsmall => exists_wordPlace (Nat.lt_trans (hcount hsmall) (by decide)))
    fun size _ => (allocate_renumbers size).bind ?_
  rintro ⟨temp, reserved⟩ ⟨temp', reserved'⟩ -
  refine (hparts temp temp').bind fun _ => ?_
  refine .pure (by simp) fun _ hstored ⟨htemp, hreserved⟩ => ?_
  exact (hreserved.append (hstored htemp)).append (.localGet htemp)

mutual

/-- **Expressions** fail alike in both versions or give code that is renamed. -/
theorem expr_renumbers : (e : Expr) → v.Small e.extent → v.Matches e.callSites →
    Renumbered v (expr e) := by
  intro e h hcalls
  cases e with
  | literal _ value =>
    rw [extent] at h
    simpa only [expr] using
      literal_renumbers fun hsmall => (h hsmall).right.literals value (mem_singleton_self _)
  | id _ name => simpa only [expr] using nameValue_renumbers name
  | binary _ op left right =>
    rw [extent] at h
    simpa only [expr] using binary_renumbers _ _ _ _
      (expr_renumbers left h.right.left hcalls.left)
      (expr_renumbers right h.right.right hcalls.right)
  | unary _ op operand =>
    rw [extent] at h
    simpa only [expr] using unary_renumbers op (expr_renumbers operand h.right hcalls)
  | call _ name args =>
    rw [extent] at h
    simpa only [expr] using call_renumbers hcalls.head (exprs_renumbers args h.right hcalls.tail)
  | builtin1 _ name arg =>
    rw [extent] at h
    simpa only [expr] using builtin1_renumbers name _ (expr_renumbers arg h.right hcalls)
  | builtin2 _ name left right =>
    rw [extent] at h
    simpa only [expr] using builtin2_renumbers name
      (expr_renumbers left h.right.left hcalls.left)
      (expr_renumbers right h.right.right hcalls.right)
  | construct _ cls args =>
    rw [extent] at h
    simpa only [expr] using construct_renumbers hcalls.head
      (exprs_renumbers args h.right hcalls.tail)
  | methodCall _ object method args =>
    rw [extent] at h
    simpa only [expr] using methodCall_renumbers hcalls.left
      (expr_renumbers object h.right.left hcalls.right.left)
      (exprs_renumbers args h.right.right hcalls.right.right)
  | lookup _ object field =>
    rw [extent] at h
    simpa only [expr] using fieldLookup_renumbers _ field (expr_renumbers object h.right hcalls)
  | index _ object key =>
    rw [extent] at h
    simpa only [expr] using indexed_renumbers _ _
      (fun hsmall => Nat.lt_trans object.ty_nodes_lt (h hsmall).right.left.nodes)
      (expr_renumbers object h.right.left hcalls.left)
      (expr_renumbers key h.right.right hcalls.right)
  | list _ elements =>
    rw [extent] at h
    have hcount : v.small → elements.length < 2 ^ 20 := fun hsmall =>
      Nat.lt_of_le_of_lt (length_le_extents elements) (h hsmall).right.nodes
    have hsize : ∀ bound : UInt32, bound.toNat + 1 < 2 ^ 29 →
        ∃ size, Block.listSize bound = .ok size := by
      intro bound hbound
      have hthree : (3 : UInt32).toNat = 3 := rfl
      exact exists_size (by omega)
    simpa only [expr] using collection_renumbers _ hcount hsize fun temp temp' =>
      storeAll_renumbers temp temp' exists_listPlace 0 elements
        (fun hsmall => by have := hcount hsmall; omega) h.right hcalls
  | tuple _ elements =>
    rw [extent] at h
    have hcount : v.small → elements.length < 2 ^ 20 := fun hsmall =>
      Nat.lt_of_le_of_lt (length_le_extents elements) (h hsmall).right.nodes
    simpa only [expr] using tuple_renumbers hcount fun temp temp' =>
      storeAll_renumbers temp temp' exists_tuplePlace 0 elements
        (fun hsmall => by have := hcount hsmall; omega) h.right hcalls
  | dict _ entries =>
    rw [extent] at h
    have hcount : v.small → entries.length < 2 ^ 20 := fun hsmall =>
      Nat.lt_of_le_of_lt (length_le_entryExtents entries) (h hsmall).right.nodes
    have hsize : ∀ bound : UInt32, bound.toNat + 1 < 2 ^ 29 →
        ∃ size, Block.dictSize bound = .ok size := by
      intro bound hbound
      obtain ⟨size, hsize, -⟩ := exists_dictKey hbound
      exact ⟨size, hsize⟩
    simpa only [expr] using collection_renumbers _ hcount hsize fun temp temp' =>
      storeEntries_renumbers temp temp' 0 entries
        (fun hsmall => by have := hcount hsmall; omega) h.right hcalls

theorem exprs_renumbers : (es : List Expr) → v.Small (extents es) →
    v.Matches (allCallSites es) → RenumbersWords v (exprs es) (exprs es) es.length := by
  intro es h hcalls
  cases es with
  | nil => exact .pure (by simp) fun _ => .nil
  | cons first rest =>
    rw [extents] at h
    refine (expr_renumbers first h.left hcalls.left).bind fun _ => ?_
    refine (exprs_renumbers rest h.right hcalls.right).bind fun _ => ?_
    rw [length_cons, Nat.add_comm]
    exact .pure (by simp) fun _ hcodes hcode => hcode.append hcodes

/-- Elements are stored one after another, with the calls before them pending. -/
theorem storeAll_renumbers (temp temp' : String) {offsetOf : UInt32 → Checked UInt32}
    (hoffset : ∀ i < 2 ^ 20, ∃ offset, offsetOf (UInt32.ofNat i) = .ok offset) (index : Nat) :
    (es : List Expr) → (v.small → index + es.length < 2 ^ 20) →
      v.Small (extents es) → v.Matches (allCallSites es) →
      Renumbers v [] (storeAll temp offsetOf index es) (storeAll temp' offsetOf index es)
        fun shape code code' => shape.Names temp temp' → shape.Renames code code' 0 0 := by
  intro es hcount h hcalls
  cases es with
  | nil => exact .pure (by simp) fun _ _ => .nil
  | cons first rest =>
    rw [extents] at h
    rw [length_cons] at hcount
    refine (expr_renumbers first h.left hcalls.left).bind fun _ => ?_
    refine .checked (fun hsmall => hoffset index (by have := hcount hsmall; omega)) fun place _ =>
      ?_
    refine (storeAll_renumbers temp temp' hoffset (index + 1) rest
      (fun hsmall => by have := hcount hsmall; omega) h.right hcalls.right).bind fun _ => ?_
    refine .pure (by simp) fun _ hcodes hcode htemp => ?_
    exact (Renames.storeWord htemp place hcode).append (hcodes htemp)

theorem storeEntries_renumbers (temp temp' : String) (index : Nat) :
    (entries : List (Expr × Expr)) → (v.small → index + entries.length < 2 ^ 20) →
      v.Small (entryExtents entries) → v.Matches (entryCallSites entries) →
      Renumbers v [] (storeEntries temp index entries) (storeEntries temp' index entries)
        fun shape code code' => shape.Names temp temp' → shape.Renames code code' 0 0 := by
  intro entries hcount h hcalls
  cases entries with
  | nil => exact .pure (by simp) fun _ _ => .nil
  | cons entry rest =>
    obtain ⟨key, value⟩ := entry
    rw [entryExtents] at h
    rw [length_cons] at hcount
    have hplace : v.small → (UInt32.ofNat index).toNat + 2 < 2 ^ 29 := by
      intro hsmall
      have hle := toNat_ofNat_le index
      have hfew := hcount hsmall
      omega
    refine (expr_renumbers key h.left.left hcalls.left).bind fun _ => ?_
    refine .checked (fun hsmall => (exists_dictKey (by have := hplace hsmall; omega)).imp
      fun _ hkey => hkey.1) fun first _ => ?_
    refine (expr_renumbers value h.left.right hcalls.right.left).bind fun _ => ?_
    refine .checked (fun hsmall => exists_dictValue (hplace hsmall)) fun second _ => ?_
    refine (storeEntries_renumbers temp temp' (index + 1) rest
      (fun hsmall => by have := hcount hsmall; omega) h.right hcalls.right.right).bind fun _ => ?_
    refine .pure (by simp) fun _ hcodes hcode hword htemp => ?_
    exact ((Renames.storeWord htemp first hword).append (.storeWord htemp second hcode)).append
      (hcodes htemp)

end

end Exprs

end Lowering

end TypedWasm
