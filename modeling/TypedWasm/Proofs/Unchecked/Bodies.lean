import TypedWasm.Proofs.Renamed.Bodies

/-!
# Bodies with and without index checks

The bodies of functions and the top level are lowered twice, with and without checks. Both lowerings
fail for the same reason, or both give functions that run alike on runs that settle.
-/

namespace TypedWasm

open Lower

/-- The names under which units with and without checks hold functions that run alike: that of the
element address only when it is `kept` in the unit without checks. -/
def Unchecked.known (kept : Prop) (name : String) : Prop :=
  name = Helper.listElementAddress.name → kept

namespace Lowering

/-- A body under the same name, with and without checks. -/
def SameRoutine (kept : Prop) (fn fn' : Func) : Prop :=
  fn'.name = fn.name ∧ Counterpart .unchecked (Unchecked.known kept) fn fn'

/-- Two lowered bodies: the same failure, or functions that run alike for whatever is `kept` if the
second one calls the element address. Apart from that both call the same helpers. -/
inductive SameBody : LoweredBody → LoweredBody → Prop
  | ok {fn fn' : Func} {later later' : Progress}
      (hhelpers : ∀ helper : Helper, helper ≠ .listElementAddress →
        (helper ∈ later'.helpers ↔ helper ∈ later.helpers))
      (hroutine : ∀ kept : Prop, (Helper.listElementAddress ∈ later'.helpers → kept) →
        SameRoutine kept fn fn') :
      SameBody (.ok fn, later) (.ok fn', later')
  | error (failure : Failure) (later later' : Progress) :
      SameBody (.error failure, later) (.error failure, later')

section Bodies

variable {context : Context}

theorem Body.sameBody (body : Body) (hfree : Helper.listElementAddress.name ∉ context.callables) :
    SameBody (body.run (context.checking true) {}) (body.run (context.checking false) {}) := by
  have hstarts := body.start_renumbers (v := .unchecked (context.binding body.bound)) False.elim
    (body.isLocal_binding context) {} {}
    ⟨rfl, fun _ hmem => absurd hmem List.not_mem_nil, fun _ _ hmem => hmem⟩
  rw [body.run_eq, body.run_eq]
  change Renumbering _ _ _ _ (body.start.run ((context.checking true).binding body.bound) {})
    (body.start.run ((context.checking false).binding body.bound) {}) at hstarts
  generalize body.start.run ((context.checking true).binding body.bound) {} = outcome,
    body.start.run ((context.checking false).binding body.bound) {} = outcome' at hstarts
  cases hstarts with
  | error failure later later' _ => exact .error failure later later'
  | @ok start start' middle middle' _ _ hmiddle _ hstart =>
    have hcodes := block_renumbers (v := .unchecked (context.binding body.bound)) body.stmts
      False.elim (.unknown rfl) middle middle' hmiddle
    dsimp only
    change Renumbering _ _ _ _
      ((block body.stmts).run ((context.checking true).binding body.bound) middle)
      ((block body.stmts).run ((context.checking false).binding body.bound) middle') at hcodes
    generalize (block body.stmts).run ((context.checking true).binding body.bound) middle = outcome,
      (block body.stmts).run ((context.checking false).binding body.bound) middle' =
        outcome' at hcodes
    cases hcodes with
    | error failure later later' _ => exact .error failure later later'
    | @ok code code' later later' hwithin hwithin' hbehind _ hcode =>
      have htemps : later'.tempNames = later.tempNames := by
        rw [Progress.tempNames, Progress.tempNames, hbehind.temps]
        rfl
      show SameBody (.ok (body.func start code later.tempNames), later.finished)
        (.ok (body.func start' code' later'.tempNames), later'.finished)
      rw [htemps]
      refine .ok (fun helper hhelper => ?_) fun kept hkept => ?_
      · refine ⟨fun hmem => hbehind.earlier rfl hmem, fun hmem => ?_⟩
        exact (hbehind.helpers helper hmem).resolve_right fun he => hhelper he.2
      · have hadmits : ∀ start, Admits (.unchecked (context.binding body.bound)) start
            (later, later') (.keeping .unchecked (Unchecked.known kept)) := by
          refine fun _ => admits_keeping rfl (fun name hmem he => absurd (he ▸ hmem) hfree)
            (fun helper _ hmem he => hkept ?_) fun _ => trivial
          rw [← Helper.eq_of_name_eq he]
          exact hmem
        exact ⟨rfl, rfl, rfl, (((hstart _ ((hadmits _).within hwithin hwithin')).append
          (hcode _ (hadmits _) fun _ => trivial)).append
          (body.last_renames ⟨rfl, rfl, nofun⟩)).renamed 0⟩

end Bodies

end Lowering

end TypedWasm
