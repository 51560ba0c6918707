import TypedWasm.Proofs.Renamed.Lowered

/-!
# Statements lowered twice

Statements, and with them whole bodies, lower to the same listings under other names. The positions
of a list pattern are checked in every version.
-/

namespace TypedWasm

open TypedWasm.Frame List

mutual

/-- Whether a statement holds a return. -/
def Stmt.returns : Stmt → Bool
  | .ret _ => true
  | .cond _ thenBody elseBody => anyReturns thenBody || anyReturns elseBody
  | .loop _ body => anyReturns body
  | _ => false

def Stmt.anyReturns : List Stmt → Bool
  | [] => false
  | first :: rest => first.returns || anyReturns rest

end

/-- Locals that are declared. No frames follow. -/
def Renaming.declared (names : List String) : Renaming where
  mode := .named
  frames _ _ := False
  reads name _ := name ∈ names
  writes name _ := name ∈ names
  get h := h.elim
  set h := h.elim

namespace Lowering

open Discipline (Moves)
open Shape (Renames)

variable {context : Context} {later : Progress} {func : Func} {arity : Option (String → Nat)}
  {pending : List Callee} {known : String → Prop} {inits : List VarInit} {fn : FunDef}
  {stmts : List Stmt}

section Bodies

variable {v : Versions}

attribute [local simp] Calling.calls InstrOf.allCallees InstrOf.callees InstrOf.allCallees_append
  Instr.constU Instr.add Instr.sub Instr.mul Instr.choose Instr.when or_assoc or_comm or_left_comm

/-! ### Assignment -/

theorem assignTo_renumbers {target : Target} (h : v.Small target.extent)
    (hcalls : v.Matches target.callSites) (value value' : Code) :
    Renumbers v (InstrOf.allCallees value) (assignTo target value) (assignTo target value')
      fun shape code code' => shape.Renames value value' 0 1 → shape.Renames code code' 0 0 := by
  refine .reads ?_
  have henv : v.first.env = v.context.env ∧ v.second.env = v.context.env := ⟨rfl, rfl⟩
  rw [henv.1, henv.2]
  cases target with
  | id name =>
    dsimp only
    split
    · next hlocal =>
      exact .pure (by simp) fun hshape hvalue =>
        hvalue.append (.localSet (hshape.locals name hlocal))
    · refine .result (fun hsmall => (v.room hsmall).globalAddress name) fun address => ?_
      refine .pure (by simp) fun _ hvalue => ?_
      exact ((Renames.plain [.constU address] rfl).append hvalue).append (.plain _ rfl)
  | lookup object field =>
    refine (requiredClass_renumbers _).bind fun {cls cls'} hcls => ?_
    obtain ⟨rfl, -⟩ := hcls
    refine .found fun word hword => (expr_renumbers object h.right hcalls).bind fun _ => ?_
    refine .checked (fun hsmall => (v.room hsmall).instanceField hword) fun place _ => ?_
    exact .pure (by simp) fun _ hcode _ hvalue => (hcode.append hvalue).append (.plain _ rfl)
  | index object key =>
    dsimp only
    split
    · refine (listElement_renumbers key.ty (expr_renumbers object h.right.left hcalls.left)
        (expr_renumbers key h.right.right hcalls.right)).bind fun _ => ?_
      exact .pure (by simp) fun _ haddress hvalue => (haddress.append hvalue).append (.plain _ rfl)
    · exact .fail
    · exact .fail

/-- Positions are assigned in order. `given` is what the words for the positions need. -/
theorem assignSlots_renumbers {given : Shape → Prop} {valueAt valueAt' : Nat → Lower Code}
    {limit : Nat} (hvalue : ∀ place < limit, Renumbers v [] (valueAt place) (valueAt' place)
      fun shape code code' => given shape → shape.Renames code code' 0 1)
    (position : Nat) {slots : List Slot} (hcount : position + slots.length ≤ limit)
    (h : v.Small (Extent.all (·.target.extent) slots))
    (hcalls : v.Matches (slots.flatMap fun slot => slot.target.callSites)) :
    Renumbers v [] (assignSlots valueAt position slots) (assignSlots valueAt' position slots)
      fun shape code code' => given shape → shape.Renames code code' 0 0 := by
  induction slots generalizing position with
  | nil => exact .pure (by simp) fun _ _ => .nil
  | cons slot rest ih =>
    rw [Extent.all] at h
    rw [length_cons] at hcount
    rw [flatMap_cons] at hcalls
    have hrest := ih (position + 1) (by omega) h.right hcalls.right
    rw [assignSlots, assignSlots]
    split
    · exact hrest
    · refine (hvalue position (by omega)).andThen fun {word word'} _ => ?_
      refine (assignTo_renumbers h.left hcalls.left word word').andThen fun _ => ?_
      refine hrest.bind fun _ => ?_
      exact .pure (by simp) fun _ hcodes hcode hword hgiven =>
        (hcode (hword hgiven)).append (hcodes hgiven)

section Patterns

variable {slots : List Slot} (source source' : String)

/-- Code that takes the word in a local apart. -/
def RenumbersApart (v : Versions) (step : String → Lower Code)
    (source source' : String) : Prop :=
  Renumbers v [] (step source) (step source') fun shape code code' =>
    shape.Names source source' → shape.Renames code code' 0 0

theorem wholeValue_renumbers (h : v.Small (Extent.all (·.target.extent) slots))
    (hcalls : v.Matches (slots.flatMap fun slot => slot.target.callSites)) :
    RenumbersApart v (wholeValue slots) source source' := by
  unfold RenumbersApart wholeValue
  split
  · next slot =>
    split
    · exact .fail
    · split
      · exact .pure (by simp) fun _ _ => .nil
      · rw [flatMap_singleton] at hcalls
        refine (assignTo_renumbers (fun hsmall => (h hsmall).of_mem (mem_singleton_self slot))
          hcalls [.localGet source] [.localGet source']).weaken fun _ _ _ hcode hsource => ?_
        exact hcode (.localGet hsource)
  · exact .fail

theorem rejectStarred_renumbers (slots : List Slot) (what : String) :
    Renumbers v [] (rejectStarred slots what) (rejectStarred slots what) Unchanged := by
  rw [rejectStarred]
  split
  · exact .fail
  · exact .pure (by simp) fun _ => rfl

theorem partOf_renumbers {place : Checked UInt32} (h : v.small → ∃ offset, place = .ok offset) :
    Renumbers v [] (partOf source place) (partOf source' place)
      fun shape code code' => shape.Names source source' → shape.Renames code code' 0 1 := by
  refine .checked h fun _ _ => .pure (by simp) fun _ hsource => ?_
  exact (Renames.localGet hsource).append (.plain _ rfl)

theorem instanceParts_renumbers (cls : String) (h : v.Small (Extent.all (·.target.extent) slots))
    (hcalls : v.Matches (slots.flatMap fun slot => slot.target.callSites)) :
    RenumbersApart v (instanceParts cls slots) source source' := by
  refine (rejectStarred_renumbers slots _).bindEq fun _ => .reads ?_
  refine .found fun layout hlayout => ?_
  dsimp only
  split
  · exact .fail
  · next hlength =>
    refine assignSlots_renumbers (fun place hplace => ?_) 0 (Nat.le_of_eq (Nat.zero_add _)) h hcalls
    -- There are as many fields as positions, so every position has one.
    have hfield : place < layout.fields.length := by omega
    rw [getElem?_eq_getElem hfield]
    refine partOf_renumbers source source' fun hsmall => ?_
    have hoffset := ((v.room hsmall).classLayout hlayout).offsets _ (getElem_mem hfield)
    obtain ⟨place, hplace, -⟩ := @Block.exists_wordOffset layout.fields[place].offset (by omega)
    exact ⟨place, hplace⟩

theorem length_slots_lt {config : Config} (h : (Extent.all (·.target.extent) slots).Small config) :
    slots.length < 2 ^ 20 :=
  Nat.lt_of_le_of_lt (Extent.length_le_nodes (fun slot => slot.target.one_le_nodes) slots) h.nodes

theorem tupleParts_renumbers (arity : Nat) (h : v.Small (Extent.all (·.target.extent) slots))
    (hcalls : v.Matches (slots.flatMap fun slot => slot.target.callSites)) :
    RenumbersApart v (tupleParts arity slots) source source' := by
  refine (rejectStarred_renumbers slots _).bindEq fun _ => ?_
  split
  · exact .fail
  · refine assignSlots_renumbers (fun place hplace => ?_) 0 (Nat.le_of_eq (Nat.zero_add _)) h hcalls
    exact partOf_renumbers source source' fun hsmall =>
      Block.exists_tuplePlace place (Nat.lt_trans hplace (length_slots_lt (h hsmall)))

theorem elementOf_renumbers {index : Code} (hindex : InstrOf.allCallees index = [])
    (index' : Code) : Renumbers v [] (elementOf source index) (elementOf source' index')
      fun shape code code' => shape.Names source source' → shape.Renames index index' 0 1 →
        shape.Renames code code' 0 1 := by
  refine (helper_renumbers .listElementAddress).bind fun _ => ?_
  refine .pure (by simp [hindex]) fun _ hi hsource hindex => ?_
  exact ((Renames.localGet hsource).append hindex).append (Renames.append hi (.plain [.load 0] rfl))

theorem listPart_renumbers (size size' : String) (count : Nat) (star : Option Nat)
    (position : Nat) : Renumbers v [] (listPart source size count star position)
      (listPart source' size' count star position) fun shape code code' =>
        shape.Names source source' ∧ shape.Names size size' → shape.Renames code code' 0 1 := by
  have hfront : Renumbers v [] (elementOf source [.const (Word.ofNat position)])
      (elementOf source' [.const (Word.ofNat position)]) fun shape code code' =>
        shape.Names source source' ∧ shape.Names size size' → shape.Renames code code' 0 1 :=
    (elementOf_renumbers source source' rfl _).weaken fun _ _ _ h given => h given.1 (.plain _ rfl)
  unfold listPart
  split
  · split
    · refine (helper_renumbers .listSlice).bind fun _ => ?_
      refine .pure (by simp) fun _ hi ⟨hsource, hsize⟩ => ?_
      exact (Renames.localGet hsource).append ((Renames.plain [_] rfl).append
        ((Renames.localGet hsize).append ((Renames.plain [_, _] rfl).append hi)))
    · split
      · refine (elementOf_renumbers source source' rfl _).weaken
          fun _ _ _ h ⟨hsource, hsize⟩ => h hsource ?_
        exact (Renames.localGet hsize).append (.plain _ rfl)
      · exact hfront
  · exact hfront

theorem listParts_renumbers (h : v.Small (Extent.all (·.target.extent) slots))
    (hcalls : v.Matches (slots.flatMap fun slot => slot.target.callSites)) :
    RenumbersApart v (listParts slots) source source' := by
  unfold RenumbersApart listParts
  extract_lets stars star count
  split
  · exact .fail
  · refine newTemp_renumbers.bind fun {size size'} _ => ?_
    split
    next required mismatch _ =>
    refine (intrinsic_renumbers .unpackError).bind fun {i i'} _ => ?_
    refine (assignSlots_renumbers
      (fun place _ => listPart_renumbers source source' size size' count star place) 0
      (Nat.le_of_eq (Nat.zero_add _)) h hcalls).bind fun _ =>
        .pure (by simp) fun {_ shape} _ hcodes hi hsize hsource => ?_
    have hreport : shape.Renames [.const (Word.ofNat required), .localGet size, i, .unreachable]
        [.const (Word.ofNat required), .localGet size', i', .unreachable] 0 0 :=
      (Renames.plain [_] rfl).append ((Renames.localGet hsize).append
        (Renames.append hi (.plain [_] rfl)))
    have hloaded := ((Renames.localGet hsource).append (.plain [.load Block.sizeOffset] rfl)).append
      ((Renames.localSet hsize).append (.localGet hsize))
    have hcompared := hloaded.append (.plain [.const (Word.ofNat required), .numeric mismatch] rfl)
    exact (hcompared.append (.cond hreport .nil)).append (hcodes ⟨hsource, hsize⟩)

theorem pattern_renumbers {target : Pattern} (h : v.Small target.extent)
    (hcalls : v.Matches target.callSites) : RenumbersApart v (pattern target) source source' := by
  unfold RenumbersApart pattern
  split
  · split
    · exact instanceParts_renumbers source source' _ h.right hcalls
    · exact tupleParts_renumbers source source' _ h.right hcalls
    · exact listParts_renumbers source source' h.right hcalls
    · exact .fail
  · exact wholeValue_renumbers source source' h.right hcalls

end Patterns

/-! ### Statements -/

mutual

/-- **Statements** fail alike in both versions or give code that is renamed. -/
theorem stmt_renumbers : (s : Stmt) → v.Small s.extent → v.Matches s.callSites →
    Renumbers v [] (stmt s) (stmt s) fun shape code code' =>
      (s.returns = true → shape.escapes) → shape.Renames code code' 0 0 := by
  intro s h hcalls
  cases s with
  | ret value =>
    rw [Stmt.extent] at h
    refine (expr_renumbers value h.right hcalls).bind fun _ => ?_
    refine .pure (by simp) fun {_ shape} _ hcode hescapes => ?_
    have hret : shape.Renames [.ret] [.ret] 1 0 :=
      ⟨fun _ => .ret (hescapes rfl) .nil, fun _ _ _ => .ret 0⟩
    exact hcode.append hret
  | assign target value =>
    rw [Stmt.extent] at h
    refine newTemp_renumbers.bind fun {source source'} _ => ?_
    refine (expr_renumbers value h.right.right hcalls.right).bind fun _ => ?_
    refine (pattern_renumbers source source' h.right.left hcalls.left).bind fun _ => ?_
    exact .pure (by simp) fun _ hassigned hcode hsource _ =>
      (hcode.append (.localSet hsource)).append (hassigned hsource)
  | expr value =>
    rw [Stmt.extent] at h
    refine (expr_renumbers value h.right hcalls).bind fun _ => ?_
    exact .pure (by simp) fun hshape hcode _ => hcode.append hshape.setScratch
  | cond test thenBody elseBody =>
    rw [Stmt.extent] at h
    refine (expr_renumbers test h.right.left hcalls.left).bind fun _ => ?_
    refine (block_renumbers thenBody h.right.right.left hcalls.right.left).bind fun _ => ?_
    refine (block_renumbers elseBody h.right.right.right hcalls.right.right).bind fun _ => ?_
    refine .pure (by simp) fun _ helse hthen htest hescapes =>
      htest.append (.cond (hthen ?_) (helse ?_))
    all_goals exact fun hreturns => hescapes (by simp [Stmt.returns, hreturns])
  | loop test body =>
    rw [Stmt.extent] at h
    refine (expr_renumbers test h.right.left hcalls.left).bind fun _ => ?_
    refine (block_renumbers body h.right.right hcalls.right).bind fun _ => ?_
    refine .pure (by simp) fun {_ shape} _ hcode htest hescapes =>
      ⟨fun labels => ?_, fun scope hscope labels => .block (.loop ?_)⟩
    -- Both jumps end inside the block: one leaves it, the other starts the loop again.
    · have hleave : Renamed shape.naming shape.known shape.escapes (labels + 2) [.eqz, .brIf 1]
          [.eqz, .brIf 1] := .plain rfl (.brIf (.inr (by simp)) .nil)
      have hback : Renamed shape.naming shape.known shape.escapes (labels + 2) [.br 0] [.br 0] :=
        .br (.inr (by simp)) .nil
      exact .block (.loop ((((htest.renamed _).append hleave).append
        ((hcode hescapes).renamed _)).append hback) .nil) .nil
    · have hleave : Moves scope (0 :: 0 :: labels) [.eqz, .brIf 1] 1 0 :=
        .cons rfl (by decide) (Moves.brIf rfl)
      exact (((htest.moves scope hscope _).append hleave).append
        ((hcode hescapes).moves scope hscope _)).append (.br rfl 0)
  | pass => exact .pure (by simp) fun _ _ => .nil

theorem block_renumbers : (ss : List Stmt) → v.Small (Stmt.extents ss) →
    v.Matches (Stmt.allCallSites ss) → Renumbers v [] (block ss) (block ss) fun shape code code' =>
      (Stmt.anyReturns ss = true → shape.escapes) → shape.Renames code code' 0 0 := by
  intro ss h hcalls
  cases ss with
  | nil => exact .pure (by simp) fun _ _ => .nil
  | cons first rest =>
    rw [Stmt.extents] at h
    refine (stmt_renumbers first h.left hcalls.left).bind fun _ => ?_
    refine (block_renumbers rest h.right hcalls.right).bind fun _ => ?_
    refine .pure (by simp) fun _ hcodes hcode hescapes => (hcode ?_).append (hcodes ?_)
    all_goals exact fun hreturns => hescapes (by simp [Stmt.anyReturns, hreturns])

end

theorem localInits_renumbers (inits : List VarInit)
    (hlocal : ∀ init ∈ inits, v.context.env.isLocal init.name = true)
    (h : v.Small (Extent.all VarInit.extent inits)) :
    RenumbersWords v (localInits inits) (localInits inits) 0 := by
  induction inits with
  | nil => exact .pure (by simp) fun _ => .nil
  | cons init rest ih =>
    obtain ⟨hinit, hrest⟩ := forall_mem_cons.1 hlocal
    rw [Extent.all] at h
    refine (literal_renumbers fun hsmall =>
      (h hsmall).left.right.literals _ (mem_singleton_self _)).bind fun _ => ?_
    refine (ih hrest h.right).bind fun _ => .pure (by simp) fun hshape hcodes hvalue => ?_
    exact (hvalue.append (.localSet (hshape.locals _ hinit))).append hcodes

theorem globalInits_renumbers (inits : List VarInit)
    (h : v.Small (Extent.all VarInit.extent inits)) :
    RenumbersWords v (globalInits inits) (globalInits inits) 0 := by
  induction inits with
  | nil => exact .pure (by simp) fun _ => .nil
  | cons init rest ih =>
    rw [Extent.all] at h
    refine .reads (.result (fun hsmall => (v.room hsmall).globalAddress init.name) fun address =>
      ?_)
    refine (literal_renumbers fun hsmall =>
      (h hsmall).left.right.literals _ (mem_singleton_self _)).bind fun _ => ?_
    refine (ih h.right).bind fun _ => ?_
    refine .pure (by simp) fun _ hcodes hvalue => ?_
    exact (((Renames.plain [.constU address] rfl).append hvalue).append (.plain _ rfl)).append
      hcodes

end Bodies

/-! ### One lowering -/

theorem Renumbers.self {α : Type} [Calling α] {step : Lower α} {related : Shape → α → α → Prop}
    (h : Renumbers (.shifted 0 context arity) pending step step related) {progress : Progress}
    {value : α} (hrun : step.run context progress = (.ok value, later)) : progress.Within later ∧
      (∀ base, Notes context base progress pending →
        Notes context base later (Calling.calls value)) ∧
      ∀ shape, Admits (.shifted 0 context arity) progress (later, later) shape →
        related shape value value := by
  have hself : Renumbering (.shifted 0 context arity) pending related (progress, progress)
      (step.run context progress) (step.run context progress) :=
    h progress progress (.of_subset rfl fun _ hmem => hmem)
  rw [hrun] at hself
  cases hself with
  | ok hwithin _ _ hnotes hrelated => exact ⟨hwithin, hnotes, hrelated⟩

def Versions.bounded (context : Context) (hroom : context.env.Room context.config) : Versions :=
  { offset := 0, context, inlines := false, small := True, room := fun _ => hroom }

theorem Renumbers.ne_overflow {α : Type} [Calling α] {hroom : context.env.Room context.config}
    {step : Lower α} {related : Shape → α → α → Prop}
    (h : Renumbers (.bounded context hroom) pending step step related) (progress : Progress)
    (overflow : Overflow) (later : Progress) :
    step.run context progress ≠ (.error (.overflow overflow), later) := by
  intro hrun
  have hself : Renumbering (.bounded context hroom) pending related (progress, progress)
      (step.run context progress) (step.run context progress) :=
    h progress progress ⟨rfl, fun _ hmem => .inl hmem, fun h => absurd h Bool.false_ne_true⟩
  rw [hrun] at hself
  cases hself with
  | error _ _ _ hfault =>
    obtain ⟨_, hsame⟩ := hfault trivial
    cases hsame

theorem Renumbers.notes {step : Lower Code} {related : Shape → Code → Code → Prop}
    (h : Renumbers (.shifted 0 context) [] step step related) {progress : Progress} {code : Code}
    (hrun : step.run context progress = (.ok code, later)) :
    Notes context progress later (InstrOf.allCallees code) :=
  (h.self hrun).2.1 progress (.nil _ _)

/-- A shape in which every local keeps its name. -/
def Shape.keeping (mode : Mode) (known : String → Prop) : Shape :=
  { naming := .same mode, known, escapes := True }

theorem admits_keeping {v : Versions} {start : Progress} {later : Progress × Progress} {mode : Mode}
    (hoffset : v.offset = 0) (hcallables : ∀ name ∈ v.context.callables, known name)
    (hhelpers : ∀ helper ∈ later.1.helpers, helper ∈ later.2.helpers → known helper.name)
    (hinlines : v.inlines = true → mode.inlines) : Admits v start later (.keeping mode known) where
  locals _ _ := ⟨rfl, rfl, nofun⟩
  scratch := rfl
  temps _ _ _ := by
    rw [hoffset]
    exact ⟨rfl, rfl, nofun⟩
  callables := hcallables
  helpers := hhelpers
  inlines := hinlines
  scope := nofun

namespace Body

theorem start_renumbers (body : Body) (h : v.Small (Extent.all VarInit.extent body.inits))
    (hlocal : ∀ name ∈ body.locals, v.context.env.isLocal name = true) :
    RenumbersWords v body.start body.start 0 := by
  cases htop : body.isTop with
  | true =>
    rw [start, htop]
    exact globalInits_renumbers body.inits h
  | false =>
    rw [locals, htop] at hlocal
    rw [start, htop]
    exact localInits_renumbers body.inits (fun init hinit => hlocal _ (mem_map_of_mem hinit)) h

theorem isLocal_binding (body : Body) (context : Context) :
    ∀ name ∈ body.locals, (context.binding body.bound).env.isLocal name = true := by
  intro name hname
  simp [Context.binding, bound, Environment.isLocal, Environment.enter, hname]

theorem last_renames (body : Body) {shape : Shape} (h : shape.Names scratchLocal scratchLocal) :
    shape.Renames [body.last] [body.last] 0 1 := by
  rw [last]
  cases body.isTop with
  | true => exact .localGet h
  | false => exact .plain _ rfl

variable {body : Body} (h : body.run context {} = (.ok func, later))
include h

/-- The notes of a body are its calls. -/
theorem notes : Notes context {} later (InstrOf.allCallees func.body) := by
  obtain ⟨start, first, code, second, hstart, hcode, rfl, rfl⟩ := run_eq_ok_iff.1 h
  have hnotes := ((body.start_renumbers (v := .shifted 0 _) False.elim
    (body.isLocal_binding context)).notes hstart).append
    ((block_renumbers (v := .shifted 0 _) body.stmts False.elim (.unknown rfl)).notes hcode)
  have hlast : InstrOf.allCallees [body.last] = [] := by
    rw [last]
    cases body.isTop <;> rfl
  refine Notes.congr ⟨hnotes.helpers, hnotes.intrinsics, hnotes.users⟩ fun callee => ?_
  simp [func, InstrOf.allCallees_append, hlast]

theorem calls_within (hcallables : ∀ name ∈ context.callables, known name)
    (hhelpers : ∀ helper ∈ later.helpers, known helper.name) :
    ∀ callee ∈ InstrOf.allCallees func.body, callee.Within known := by
  intro callee hmem
  have hnotes := notes h
  cases callee with
  | user name => exact hcallables name (hnotes.users name hmem)
  | helper helper => exact hhelpers helper ((hnotes.helpers helper).2 (.inr hmem))
  | intrinsic => trivial

end Body

/-! ### The stack -/

/-- Whether the body of a function is valid wherever its calls are linked. -/
def Sound (arity : String → Nat) (callables : List String) (progress : Progress) (fn : Func) :
    Prop :=
  ∀ typeOf, Links arity callables progress typeOf →
    Discipline.body ⟨fun name => (fn.params ++ fn.locals).contains name, typeOf⟩ fn.body = true

section Sound

variable {arity : String → Nat}

/-- The shape in which the locals are declared, and the stack is looked at where types are given. -/
def Shape.declared (locals : List String) (typeOf : Option (Callee → Option FuncType)) : Shape :=
  { Shape.any with
    naming := .declared locals
    scope := typeOf.map fun typeOf => ⟨fun name => locals.contains name, typeOf⟩ }

variable {locals : List String} {typeOf : Option (Callee → Option FuncType)}
  {arities : Option (String → Nat)}

theorem Shape.declared_names {name name' : String} (h : name ∈ locals) :
    (Shape.declared locals typeOf).Names name name' := by
  refine ⟨h, h, fun scope hscope => ?_⟩
  obtain ⟨_, -, rfl⟩ := Option.map_eq_some_iff.1 hscope
  simpa using h

/-- The types that a body is looked at with, if any, are those of what it calls. -/
def Linked (context : Context) (progress : Progress) (arities : Option (String → Nat))
    (typeOf : Option (Callee → Option FuncType)) : Prop :=
  ∀ types ∈ typeOf, ∃ arity ∈ arities, Links arity context.callables progress types

theorem admits_declared {names : List String} {progress : Progress}
    (hlinks : Linked context progress.finished arities typeOf) (hnames : names ⊆ locals)
    (hscratch : scratchLocal ∈ locals) (htemps : progress.tempNames ⊆ locals) (start : Progress) :
    Admits (.shifted 0 (context.binding names) arities) start (progress, progress)
      (.declared locals typeOf) where
  locals name hname := by
    have hmem : name ∈ names := by
      simpa [Versions.shifted, Context.binding, Environment.isLocal, Environment.enter] using hname
    exact Shape.declared_names (hnames hmem)
  scratch := hscratch
  temps index _ hindex := Shape.declared_names (htemps (mem_map.2 ⟨index, mem_range.2 hindex, rfl⟩))
  callables _ _ := trivial
  helpers _ _ _ := trivial
  inlines h := nomatch h
  scope scope hscope := by
    obtain ⟨types, htypes, rfl⟩ := Option.map_eq_some_iff.1 hscope
    obtain ⟨arity, harity, hlinks⟩ := hlinks types htypes
    exact ⟨by simpa using hscratch, arity, harity, hlinks.callables, hlinks.helpers,
      hlinks.intrinsics⟩

namespace Body

variable {body : Body} (h : body.run context {} = (.ok func, later))
include h

variable (arities) in
theorem renames (hcalls : ∀ arity ∈ arities, Passes arity context (Stmt.allCallSites body.stmts))
    (hlinks : Linked context later arities typeOf) :
    (Shape.declared (func.params ++ func.locals) typeOf).Renames func.body func.body 0 1 := by
  obtain ⟨start, first, code, second, hstart, hcode, rfl, rfl⟩ := run_eq_ok_iff.1 h
  have hscratch :
      scratchLocal ∈ body.params ++ (body.locals ++ [scratchLocal] ++ second.tempNames) := by
    simp
  have hadmits := @admits_declared context _ typeOf arities body.bound second hlinks (by
      rw [bound, append_assoc body.locals, ← append_assoc]
      exact subset_append_left _ _) hscratch
    (fun _ hmem => mem_append_right _ (mem_append_right _ hmem))
  obtain ⟨hwithin, -, hcodeRenames⟩ := (block_renumbers (v := .shifted 0 _ arities) body.stmts
    False.elim (by exact hcalls)).self hcode
  obtain ⟨-, -, hstartRenames⟩ := (body.start_renumbers (v := .shifted 0 _ arities) False.elim
    (body.isLocal_binding context)).self hstart
  exact ((hstartRenames _ ((hadmits _).within hwithin hwithin)).append
    (hcodeRenames _ (hadmits _) fun _ => trivial)).append
    (body.last_renames (Shape.declared_names hscratch))

theorem sound (hcalls : Passes arity context (Stmt.allCallSites body.stmts)) :
    Sound arity context.callables later func := by
  intro types hlinks
  have hrenames : (Shape.declared _ (some types)).Renames func.body func.body 0 1 :=
    renames (some arity) h (by rintro _ ⟨⟩; exact hcalls)
      (by rintro _ ⟨⟩; exact ⟨arity, rfl, hlinks⟩)
  exact Discipline.body_of_moves (hrenames.moves _ rfl _)

end Body

end Sound

end Lowering

theorem Program.CallsMatch.passes {program : Program} (h : program.CallsMatch) (config : Config)
    (env : Environment) :
    Lowering.Passes program.arityOf (program.context config env) program.callSites := by
  intro site hsite hname
  have hcallable : site.1 ∈ program.routines.map (·.2) := by
    rw [Program.routine_names]
    exact hname
  obtain ⟨routine, hroutine, heq⟩ := mem_map.1 hcallable
  cases hfind : program.routines.find? (·.2 == site.1) with
  | none => exact absurd heq (by simpa using find?_eq_none.1 hfind routine hroutine)
  | some first =>
    have hname : first.2 = site.1 := by simpa using find?_some hfind
    rw [Program.arityOf, hfind]
    exact h site hsite first (mem_of_find?_eq_some hfind) hname

/-! ### Temporaries under higher numbers -/

namespace Renaming

open Lowering (tempName)

/-- A temporary and the one with the number that is `offset` higher. -/
def Counterpart (offset bound : Nat) (name name' : String) : Prop :=
  ∃ index < bound, name = tempName index ∧ name' = tempName (index + offset)

/-- Frames in which every temporary below `bound` has the word of its counterpart. In the second one
the temporaries from there up to `limit` are still zero. -/
structure FramesShifted (offset bound limit : Nat) (frame frame' : Frame) : Prop where
  temps : ∀ index < bound, ∃ word, frame.get? (tempName index) = some word ∧
    frame'.get? (tempName (index + offset)) = some word
  spare : ∀ index, bound + offset ≤ index → index < limit → frame'.get? (tempName index) = some 0
  scratch : (frame.get? scratchLocal).isSome
  scratch' : (frame'.get? scratchLocal).isSome

section Set

variable {offset bound limit : Nat} {frame frame' : Frame}
  (h : FramesShifted offset bound limit frame frame') (word : Word)

include h

theorem FramesShifted.set_temp {index : Nat} (hindex : index < bound) :
    ∃ next next', frame.set? (tempName index) word = some next ∧
      frame'.set? (tempName (index + offset)) word = some next' ∧
      FramesShifted offset bound limit next next' := by
  obtain ⟨old, hget, hget'⟩ := h.temps index hindex
  obtain ⟨next, hset⟩ := exists_set? (by rw [hget]; rfl) word
  obtain ⟨next', hset'⟩ := exists_set? (by rw [hget']; rfl) word
  have htemp : ∀ {place other : Nat}, place ≠ other → tempName place ≠ tempName other :=
    fun hne he => hne (tempName_injective he)
  refine ⟨next, next', hset, hset', fun place hplace => ?_, fun place hlow hhigh => ?_, ?_, ?_⟩
  · rw [get?_of_set? hset, get?_of_set? hset']
    by_cases hsame : place = index
    · subst hsame
      exact ⟨word, by simp, by simp⟩
    · rw [if_neg (htemp hsame), if_neg (htemp (by omega))]
      exact h.temps place hplace
  · rw [get?_of_set? hset', if_neg (htemp (by omega))]
    exact h.spare place hlow hhigh
  · rw [get?_of_set? hset, if_neg (scratchLocal_ne_tempName _)]
    exact h.scratch
  · rw [get?_of_set? hset', if_neg (scratchLocal_ne_tempName _)]
    exact h.scratch'

theorem FramesShifted.set_scratch : ∃ next next', frame.set? scratchLocal word = some next ∧
      frame'.set? scratchLocal word = some next' ∧ FramesShifted offset bound limit next next' := by
  obtain ⟨next, hset⟩ := exists_set? h.scratch word
  obtain ⟨next', hset'⟩ := exists_set? h.scratch' word
  have hne : ∀ index, tempName index ≠ scratchLocal := fun index =>
    (scratchLocal_ne_tempName index).symm
  refine ⟨next, next', hset, hset', fun place hplace => ?_, fun place hlow hhigh => ?_, ?_, ?_⟩
  · rw [get?_of_set? hset, get?_of_set? hset', if_neg (hne _), if_neg (hne _)]
    exact h.temps place hplace
  · rw [get?_of_set? hset', if_neg (hne _)]
    exact h.spare place hlow hhigh
  · simp [get?_of_set? hset]
  · simp [get?_of_set? hset']

end Set

/-- Temporaries under numbers that are `offset` higher. The scratch local is written and never read.
-/
def shifted (offset bound limit : Nat) : Renaming where
  mode := .named
  frames := FramesShifted offset bound limit
  reads := Counterpart offset bound
  writes name name' := Counterpart offset bound name name' ∨
    (name = scratchLocal ∧ name' = scratchLocal)
  get := by
    rintro frame frame' name name' hframes ⟨index, hindex, rfl, rfl⟩
    exact .inl (hframes.temps index hindex)
  set := by
    rintro frame frame' name name' hframes (⟨index, hindex, rfl, rfl⟩ | ⟨rfl, rfl⟩) word
    · exact .inl (hframes.set_temp word hindex)
    · exact .inl (hframes.set_scratch word)

end Renaming

end TypedWasm
