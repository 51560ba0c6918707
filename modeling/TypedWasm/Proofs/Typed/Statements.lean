import TypedWasm.Proofs.Typed.Assignments

/-!
# Consistent statements and bodies

Consistent statements uphold the heap, keep values of their types in the locals and return values of
the type that is promised, as long as the functions they call do so with less fuel.
-/

namespace TypedWasm.Typed

open Exec List Lowering

variable {begun : Nat} {blocks : Blocks} {inits : List VarInit} {m : Machine} {args : List Word}
  {name : String} {func : Func} {env : Environment} {word : Word} {fn : FunDef}

namespace Site

variable {site : Site} {start : Nat} {code : Code} {result ty : Ty}

/-- Code that keeps values of their types in the locals and the stack as it is, and returns values
of a type only. -/
def Performs (site : Site) (result : Ty) (code : Code) : Prop :=
  ∀ before blocks m frame stack, site.Fits blocks frame →
    Upholds site.setting site.fuel site.owner before code blocks ⟨m, frame, stack⟩
      { next := fun blocks' t => site.Fits blocks' t.locals ∧ t.stack = stack
        ret := fun blocks' t => ∀ word words, t.stack = word :: words →
          site.Value result blocks' word }

theorem performs_nil (site : Site) (result : Ty) : site.Performs result [] :=
  fun _ _ _ _ _ hfits => .nil fun _ => ⟨hfits, rfl⟩

theorem Performs.append {code' : Code} (h : site.Performs result code)
    (h' : site.Performs result code') : site.Performs result (code ++ code') := by
  intro before blocks m frame stack hfits
  refine .append (h _ _ _ _ _ hfits) ?_
  rintro blocks' ⟨m', frame', stack⟩ - ⟨hfits', rfl⟩
  exact h' _ _ _ _ _ hfits'

theorem ret_performs (h : site.Leaves begun code (site.Value ty)) (htakes : result.Takes ty) :
    site.Performs result (code ++ [.ret]) := by
  intro before blocks m frame stack hfits
  refine .seq (h _ _ _ _ _ hfits) ?_
  rintro blocks' ⟨m', frame', _⟩ - ⟨-, word, rfl, hword⟩
  refine .ret fun _ other words hstack => ?_
  cases hstack
  exact hword.takes htakes

theorem assign_performs {target : Code} (h : site.Leaves (begun + 1) code (site.Value ty))
    (htarget : site.Assigns (begun + 1) (site.Holding begun ty) target) :
    site.Performs result (code ++ [.localSet (tempName begun)] ++ target) := by
  intro before blocks m frame stack hfits
  rw [append_assoc]
  refine .seq (h _ _ _ _ _ hfits) ?_
  rintro blocks₁ ⟨m₁, frame₁, _⟩ hgrow₁ ⟨hkept₁, word, rfl, hword⟩
  refine .set fun frame₂ hframe₂ hagree₂ => ?_
  have hkept₂ : Kept begun frame frame₂ :=
    (hkept₁.mono (Nat.le_succ _)).trans (.of_agree hagree₂ (Nat.le_refl _))
  refine (htarget _ _ _ _ _ (hfits.kept hgrow₁ hkept₂) ⟨word, hframe₂, hword⟩).imp_next ?_
  exact fun _ _ _ ⟨hfits₃, _, hstack⟩ => ⟨hfits₃, hstack⟩

theorem Fits.scratch {frame frame' : Frame} (h : site.Fits blocks frame)
    (hagree : Agree [scratchLocal] frame frame') : site.Fits blocks frame' := by
  intro name ty word hty hword
  have hplain := site.names _ (mem_of_lookup hty)
  have hname : name ∉ [scratchLocal] := by
    rw [mem_singleton]
    exact fun hname => not_dollarless_scratch (hname ▸ hplain)
  rw [hagree name hname] at hword
  exact h name ty word hty hword

section

variable (h : site.Leaves begun code (site.Value ty))
include h

theorem expr_performs : site.Performs result (code ++ [.localSet scratchLocal]) := by
  intro before blocks m frame stack hfits
  refine .seq (h _ _ _ _ _ hfits) ?_
  rintro blocks' ⟨m', frame', _⟩ hgrow ⟨hkept, word, rfl, -⟩
  exact .set fun _ _ hagree => .nil fun _ => ⟨(hfits.kept hgrow hkept).scratch hagree, rfl⟩

theorem cond_performs {thenCode elseCode : Code} (hthen : site.Performs result thenCode)
    (helse : site.Performs result elseCode) :
    site.Performs result (code ++ [.cond false thenCode elseCode]) := by
  intro before blocks m frame stack hfits
  refine .seq (h _ _ _ _ _ hfits) ?_
  rintro blocks₁ ⟨m₁, frame₁, _⟩ hgrow₁ ⟨hkept₁, word, rfl, -⟩
  have hfits₁ := hfits.kept hgrow₁ hkept₁
  refine .cond (fun blocks' t => site.Fits blocks' t.locals ∧ t.stack = stack) (fun _ => ?_)
    (fun _ => ?_) fun blocks' t _ hdone => ?_
  · exact (hthen _ _ _ _ _ hfits₁).imp (fun _ _ _ hdone => hdone) nofun fun _ _ hret => hret
  · exact (helse _ _ _ _ _ hfits₁).imp (fun _ _ _ hdone => hdone) nofun fun _ _ hret => hret
  · exact .nil fun _ => hdone

theorem loop_performs {bodyCode : Code} (hbody : site.Performs result bodyCode) :
    site.Performs result [.block [.loop (code ++ [.eqz, .brIf 1] ++ bodyCode ++ [.br 0])]] := by
  intro before blocks m frame stack hfits
  refine .blockLoop (fun blocks' t => site.Fits blocks' t.locals ∧ t.stack = stack)
    (fun blocks' t => site.Fits blocks' t.locals ∧ t.stack = stack) ?_ (fun _ => ⟨hfits, rfl⟩)
    fun _ _ _ hdone => .nil fun _ => hdone
  rintro blocks₁ ⟨m₁, frame₁, stack⟩ - ⟨hfits₁, rfl⟩
  simp only [append_assoc, cons_append, nil_append]
  refine .seq (h _ _ _ _ _ hfits₁) ?_
  rintro blocks₂ ⟨m₂, frame₂, _⟩ hgrow₂ ⟨hkept₂, word, rfl, -⟩
  have hfits₂ := hfits₁.kept hgrow₂ hkept₂
  refine .eqz (.brIf (fun _ _ => ⟨rfl, .inr ⟨rfl, hfits₂, rfl⟩⟩) fun _ => ?_)
  refine .append
    ((hbody _ _ _ _ _ hfits₂).imp (fun _ _ _ hdone => hdone) nofun fun _ _ hret => hret) ?_
  rintro blocks₃ ⟨m₃, frame₃, stack⟩ - ⟨hfits₃, rfl⟩
  exact .br fun _ => ⟨rfl, .inl ⟨rfl, hfits₃, rfl⟩⟩

end

mutual

/-- **Consistent statements** uphold the heap and keep the types of all variables. -/
theorem stmt_performs : (stmt : Stmt) → stmt.Consistent site.typing result → ∀ start,
    site.Gives start (Lowering.stmt stmt) (site.Performs result) := by
  intro stmt h start
  cases stmt with
  | ret value =>
    exact (expr_evaluates value h.1 start).bind fun _ hvalue => .pure (ret_performs hvalue h.2)
  | assign target value =>
    exact .newTemp fun temp _ => (expr_evaluates value h.1 (temp + 1)).bind fun _ hvalue =>
      (pattern_assigns (Nat.lt_succ_self temp) h.2).bind fun _ htarget =>
        .pure (assign_performs hvalue htarget)
  | expr value =>
      exact (expr_evaluates value h start).bind fun _ hvalue => .pure (expr_performs hvalue)
  | cond test thenBody elseBody =>
    exact (expr_evaluates test h.1 start).bind fun _ htest =>
      (block_performs thenBody h.2.1 start).bind fun _ hthen =>
        (block_performs elseBody h.2.2 start).bind fun _ helse =>
          .pure (cond_performs htest hthen helse)
  | loop test body =>
    exact (expr_evaluates test h.1 start).bind fun _ htest =>
      (block_performs body h.2 start).bind fun _ hbody => .pure (loop_performs htest hbody)
  | pass => exact .pure (performs_nil site result)

theorem block_performs : (stmts : List Stmt) → Stmt.AllConsistent site.typing result stmts →
    ∀ start, site.Gives start (Lowering.block stmts) (site.Performs result) := by
  intro stmts h start
  cases stmts with
  | nil => exact .pure (performs_nil site result)
  | cons first rest =>
    exact (stmt_performs first h.1 start).bind fun _ hfirst =>
      (block_performs rest h.2 start).bind fun _ hrest => .pure (hfirst.append hrest)

end

theorem localInits_performs (hinits : ∀ init ∈ inits, init.Consistent ∧
      site.typing.locals.lookup init.name = some init.ty) :
    site.Gives start (localInits inits) (site.Performs result) := by
  induction inits with
  | nil => exact .pure (performs_nil site result)
  | cons init rest ih =>
    obtain ⟨htakes, hty⟩ := hinits init (mem_cons_self ..)
    refine (literal_evaluates init.value start).bind fun _ hvalue =>
      (ih fun other hother => hinits other (mem_cons_of_mem _ hother)).bind fun _ hrest =>
        .pure (.append (fun before blocks m frame stack hfits => ?_) hrest)
    refine .seq (hvalue _ _ _ _ _ hfits) ?_
    rintro blocks' ⟨m', frame', _⟩ hgrow ⟨hkept, word, rfl, hword⟩
    exact .set fun _ hframe hagree => .nil fun _ =>
      ⟨(hfits.kept hgrow hkept).set hframe hagree hty (hword.takes htakes), rfl⟩

theorem globalInits_performs (hinits : ∀ init ∈ inits, init.Consistent ∧
      site.setting.globals init.name = some init.ty) :
    site.Gives start (globalInits inits) (site.Performs result) := by
  induction inits with
  | nil => exact .pure (performs_nil site result)
  | cons init rest ih =>
    obtain ⟨htakes, hty⟩ := hinits init (mem_cons_self ..)
    refine .context (.result fun address haddress => (literal_evaluates init.value start).bind
      fun _ hvalue => (ih fun other hother => hinits other (mem_cons_of_mem _ hother)).bind
        fun _ hrest => .pure (.append (fun before blocks m frame stack hfits => ?_) hrest))
    rw [globalAddress_eq] at haddress
    refine (storeGlobal_upholds (fun blocks' frame' => Kept start frame frame') hty haddress
      htakes fun _ _ => hvalue _ _ _ _ _ hfits).imp_next ?_
    rintro _ _ hgrow ⟨hkept, hstack⟩
    exact ⟨hfits.kept hgrow hkept, hstack⟩

theorem Performs.body {last : Instr} (h : site.Performs result code)
    (hlast : ∀ before blocks m frame, site.Fits blocks frame →
      Upholds site.setting site.fuel site.owner before [last] blocks ⟨m, frame, []⟩
        { next := fun blocks' t => ∃ word, t.stack = [word] ∧ site.Value result blocks' word })
    {frame : Frame} (hfits : site.Fits blocks frame) :
    Upholds site.setting site.fuel site.owner [] (code ++ [last]) blocks ⟨m, frame, []⟩
      (Upholds.body (site.Value result)) := by
  refine .append ((h _ _ _ _ _ hfits).imp (fun _ _ _ hdone => hdone) nofun fun _ _ hret => hret) ?_
  rintro blocks' ⟨m', frame', _⟩ - ⟨hfits', rfl⟩
  refine (hlast _ _ _ _ hfits').imp_next ?_
  rintro blocks'' t - ⟨word, hstack, hword⟩ other words hother
  cases hstack.symm.trans hother
  exact hword

end Site

theorem exists_parameter {parameters : List Parameter}
    (hargs : List.Forall₂ (IsValue env blocks) (parameters.map (·.ty)) args)
    (hmem : (name, word) ∈ (parameters.map (·.name)).zip args) :
    ∃ parameter ∈ parameters, parameter.name = name ∧ IsValue env blocks parameter.ty word := by
  induction parameters generalizing args with
  | nil => simp at hmem
  | cons first rest ih =>
    rcases hargs with _ | ⟨hfirst, hrest⟩
    rw [map_cons, zip_cons_cons] at hmem
    rcases mem_cons.1 hmem with heq | htail
    · cases heq
      exact ⟨first, mem_cons_self .., rfl, hfirst⟩
    · obtain ⟨parameter, hparameter, hname, hword⟩ := ih hrest htail
      exact ⟨parameter, mem_cons_of_mem _ hparameter, hname, hword⟩

/-- The arguments of a call are values of the types of their parameters, and all other locals are
none. -/
theorem isValue_ofCall {ty : Ty} (hparams : func.params = fn.parameters.map (·.name))
    (hdeclared : ∀ entry ∈ fn.declared, fn.declared.lookup entry.1 = some entry.2)
    (hargs : List.Forall₂ (IsValue env blocks) (fn.parameters.map (·.ty)) args)
    (hty : fn.declared.lookup name = some ty)
    (hword : (Frame.ofCall func args).get? name = some word) : IsValue env blocks ty word := by
  have hmem := mem_of_lookup hword
  rw [Frame.ofCall, hparams] at hmem
  rcases mem_append.1 hmem with hparam | hlocal
  · obtain ⟨parameter, hparameter, rfl, hvalue⟩ := exists_parameter hargs (mem_reverse.1 hparam)
    have hfound := hdeclared (parameter.name, parameter.ty)
      (mem_append_left _ (mem_map.2 ⟨parameter, hparameter, rfl⟩))
    cases hty.symm.trans hfound
    exact hvalue
  · obtain ⟨other, -, hentry⟩ := mem_map.1 hlocal
    cases hentry
    exact isValue_zero _ _ _

namespace Common

variable {common : Common} {progress later : Progress}

def site (common : Common) (owner : String) (fuel : Nat) (locals : List (String × Ty))
    (names : ∀ entry ∈ locals, Dollarless entry.1) (callee : common.Callees fuel) : Site :=
  { common with
    typing := { common.typing with locals }
    context := common.context.binding (locals.map (·.1))
    env_eq := by rw [Context.binding, common.env_eq]; rfl
    owner, fuel, names, callee }

/-- A consistent function upholds the heap and returns a value of its result type. -/
theorem function_upholds {signature : Signature} {fuel : Nat}
    (hfn : fn.Consistent common.typing signature)
    (h : (function fn name).run common.context progress = (.ok func, later))
    (hcallees : common.Callees fuel)
    (hargs : List.Forall₂ (IsValue common.setting.env blocks) signature.params args) :
    Upholds common.setting fuel name [] func.body blocks ⟨m, Frame.ofCall func args, []⟩
      (Upholds.body fun blocks' word =>
        IsValue common.setting.env blocks' signature.result word) := by
  obtain ⟨start, first, code, second, hstart, hcode, rfl, -⟩ := Lowering.Body.run_eq_ok_iff.1 h
  rw [hfn.params] at hargs
  have hnames : fn.declared.map (·.1) = (function fn name).bound := by
    simp [FunDef.declared, Body.bound, Body.locals, function, Function.comp_def]
  rw [← hnames] at hstart hcode
  let site := common.site name fuel fn.declared hfn.names hcallees
  have hinits : site.Gives 0 (localInits fn.inits) (site.Performs signature.result) := by
    refine Site.localInits_performs fun init hinit => ⟨hfn.inits init hinit, ?_⟩
    exact hfn.declared (init.name, init.ty) (mem_append_right _ (mem_map.2 ⟨init, hinit, rfl⟩))
  have hbody : site.Gives 0 (block fn.body) (site.Performs signature.result) :=
    Site.block_performs fn.body hfn.body 0
  refine ((hinits _ _ _ (Nat.zero_le _) hstart).2.append
    (hbody _ _ _ (Nat.zero_le _) hcode).2).body (fun _ _ _ _ _ => ?_) fun other ty word hty hword =>
      ?_
  · exact .const (.nil fun _ => ⟨0, rfl, isValue_zero _ _ _⟩)
  · exact isValue_ofCall rfl hfn.declared hargs hty hword

theorem topLevel_upholds {stmts : List Stmt} {fuel : Nat} (hlocals : common.typing.locals = [])
    (hinits : ∀ init ∈ inits, common.typing.globals init.name = some init.ty ∧ init.Consistent)
    (hstmts : Stmt.AllConsistent common.typing .number stmts)
    (h : (topLevel inits stmts).run common.context progress = (.ok func, later))
    (hcallees : common.Callees fuel) :
    Upholds common.setting fuel mainName [] func.body blocks ⟨m, Frame.ofCall func [], []⟩
      (Upholds.body fun _ _ => True) := by
  obtain ⟨start, first, code, second, hstart, hcode, rfl, -⟩ := Lowering.Body.run_eq_ok_iff.1 h
  let site := common.site mainName fuel [] (by simp) hcallees
  have htyping : site.typing = common.typing := by
    show { common.typing with locals := [] } = common.typing
    rw [← hlocals]
  have hglobals : site.Gives 0 (globalInits inits) (site.Performs .number) := by
    refine Site.globalInits_performs fun init hinit => ?_
    obtain ⟨hty, htakes⟩ := hinits init hinit
    exact ⟨htakes, common.typing_globals ▸ hty⟩
  have hbody : site.Gives 0 (block stmts) (site.Performs .number) :=
    Site.block_performs stmts (htyping ▸ hstmts) 0
  refine ((hglobals _ _ _ (Nat.zero_le _) hstart).2.append
    (hbody _ _ _ (Nat.zero_le _) hcode).2).body (fun _ _ _ _ _ => ?_) nofun
  exact .localGet fun word _ => .nil fun _ => ⟨word, rfl, trivial⟩

end Common

end TypedWasm.Typed
