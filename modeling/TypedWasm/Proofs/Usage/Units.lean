import TypedWasm.Proofs.Renamed.Bodies

/-!
# The runtime a unit carries

The notes of all bodies, with the calls in the bodies of helpers, give the helpers and intrinsics
that a unit carries: nothing that is called is missing, and nothing is there that is not called.
-/

namespace TypedWasm

open Helper InstrOf List LoweredBody

variable {callee : Callee} {caller : Helper} {slack : UInt32}

/-- Whether something in a unit calls a function: its functions, its top level or its helpers. -/
def CompiledUnit.calls (u : CompiledUnit) (callee : Callee) : Bool :=
  u.allFunctions.any fun fn => (allCallees fn.body).contains callee

theorem CompiledUnit.calls_iff {u : CompiledUnit} :
    u.calls callee = true ↔ ∃ fn ∈ u.allFunctions, callee ∈ allCallees fn.body := by
  simp [CompiledUnit.calls]

section Units

variable {config : Config} {env : Environment} {program : Program} {functions : List Func}

theorem notes_of_lowered {body : LoweredBody} {fn : Func}
    (hbody : body ∈ program.lowered config env) (hfn : body.1 = .ok fn) :
    Lowering.Notes (program.context config env) {} body.2 (allCallees fn.body) := by
  rw [Program.lowered, program.lowerBodies_bodies] at hbody
  obtain ⟨body, -, rfl⟩ := mem_map.1 hbody
  exact body.notes (Prod.ext hfn rfl)

theorem forall₂_lowered {bodies : List LoweredBody}
    (h : bodies.map (·.1) = functions.map Except.ok) :
    (∀ body ∈ bodies, ∃ fn ∈ functions, body.1 = .ok fn) ∧
      ∀ fn ∈ functions, ∃ body ∈ bodies, body.1 = .ok fn := by
  refine ⟨fun body hbody => ?_, fun fn hfn => ?_⟩
  · have hmem : body.1 ∈ functions.map Except.ok := h ▸ mem_map_of_mem hbody
    obtain ⟨fn, hfn, heq⟩ := mem_map.1 hmem
    exact ⟨fn, hfn, heq.symm⟩
  · have hmem : .ok fn ∈ bodies.map (·.1) := h ▸ mem_map_of_mem hfn
    exact mem_map.1 hmem

variable (hfunctions : (program.lowered config env).map (·.1) = functions.map Except.ok)

include hfunctions

theorem mem_notes_of_lowered {noted : LoweredBody → Prop}
    (hnoted : ∀ body ∈ program.lowered config env, ∀ fn, body.1 = .ok fn →
      (noted body ↔ callee ∈ allCallees fn.body)) :
    (∃ body ∈ program.lowered config env, noted body) ↔
      ∃ fn ∈ functions, callee ∈ allCallees fn.body := by
  obtain ⟨hbodies, hfns⟩ := forall₂_lowered hfunctions
  constructor
  · rintro ⟨body, hbody, hmem⟩
    obtain ⟨fn, hfn, heq⟩ := hbodies body hbody
    exact ⟨fn, hfn, (hnoted body hbody fn heq).1 hmem⟩
  · rintro ⟨fn, hfn, hcalled⟩
    obtain ⟨body, hbody, heq⟩ := hfns fn hfn
    exact ⟨body, hbody, (hnoted body hbody fn heq).2 hcalled⟩

theorem mem_helpers_of_lowered (helper : Helper) :
    helper ∈ helpers (program.lowered config env) ↔
      ∃ fn ∈ functions, .helper helper ∈ allCallees fn.body := by
  rw [helpers, mem_flatMap]
  exact mem_notes_of_lowered hfunctions fun _ hbody _ heq => by
    simpa using (notes_of_lowered hbody heq).helpers helper

theorem mem_intrinsics_of_lowered (intrinsic : Intrinsic) :
    intrinsic ∈ intrinsics (program.lowered config env) ↔
      ∃ fn ∈ functions, .intrinsic intrinsic ∈ allCallees fn.body := by
  rw [intrinsics, mem_flatMap]
  exact mem_notes_of_lowered hfunctions fun _ hbody _ heq => by
    simpa using (notes_of_lowered hbody heq).intrinsics intrinsic

end Units

theorem Helper.helper_mem_callees {helper : Helper} :
    .helper helper ∈ allCallees (caller.function slack).body ↔
      helper ∈ caller.helperDependencies := by
  simp [allCallees_function]

theorem Helper.intrinsic_mem_callees {intrinsic : Intrinsic} :
    .intrinsic intrinsic ∈ allCallees (caller.function slack).body ↔
      intrinsic ∈ caller.intrinsicDependencies := by
  simp [allCallees_function]

theorem Helper.user_not_mem_callees {name : String} :
    .user name ∉ allCallees (caller.function slack).body := by
  simp [allCallees_function]

theorem Helper.closure_eq_filter {used : List Helper} {keep : Helper → Bool}
    (h : ∀ helper, keep helper = true ↔ helper ∈ closure used) :
      closure used = all.filter keep := by
  rw [closure, inOrder]
  refine filter_congr fun helper hall => Bool.eq_iff_iff.2 ?_
  rw [h helper, closure, inOrder, mem_filter]
  exact ⟨fun hused => ⟨hall, hused⟩, fun hused => hused.2⟩

theorem Intrinsic.inOrder_eq_filter {used : List Intrinsic} {keep : Intrinsic → Bool}
    (h : ∀ intrinsic, keep intrinsic = true ↔ intrinsic ∈ used) : inOrder used = all.filter keep :=
  filter_congr fun intrinsic _ => Bool.eq_iff_iff.2 (by simp [h intrinsic])

section Assembled

variable {config : Config} {env : Environment} {bodies : List LoweredBody} {functions : List Func}
  (hfunctions : functions ≠ [])

include hfunctions

theorem calls_assemble : (assemble config env bodies functions).calls callee = true ↔
      (∃ fn ∈ functions, callee ∈ allCallees fn.body) ∨
        ∃ helper ∈ Helper.closure (helpers bodies),
          callee ∈ allCallees (helper.function config.listGrowthSlack).body := by
  rw [CompiledUnit.calls_iff, CompiledUnit.allFunctions,
    assemble_functions config env bodies hfunctions]
  constructor
  · rintro ⟨fn, hfn, hmem⟩
    rcases mem_append.1 hfn with hbody | hhelper
    · exact .inl ⟨fn, hbody, hmem⟩
    · obtain ⟨helper, hclosure, rfl⟩ := mem_map.1 hhelper
      exact .inr ⟨helper, hclosure, hmem⟩
  · rintro (⟨fn, hbody, hmem⟩ | ⟨helper, hclosure, hmem⟩)
    · exact ⟨fn, mem_append_left _ hbody, hmem⟩
    · exact ⟨_, mem_append_right _ (mem_map_of_mem hclosure), hmem⟩

/-- A unit carries the helpers it calls: those of its bodies, and those that these call. -/
theorem calls_helper_iff (hused : ∀ helper, helper ∈ helpers bodies ↔
      ∃ fn ∈ functions, .helper helper ∈ allCallees fn.body) (helper : Helper) :
    (assemble config env bodies functions).calls (.helper helper) = true ↔
      helper ∈ Helper.closure (helpers bodies) := by
  rw [calls_assemble hfunctions, ← hused]
  simp only [helper_mem_callees]
  constructor
  · rintro (hbody | ⟨caller, hcaller, hdependency⟩)
    · exact mem_closure.2 (.inl hbody)
    · exact dependency_mem_closure hcaller hdependency
  · intro hmem
    rcases mem_closure.1 hmem with hbody | ⟨caller, hcaller, hdependency⟩
    · exact .inl hbody
    · exact .inr ⟨caller, mem_closure.2 (.inl hcaller), hdependency⟩

/-- A unit imports the intrinsics it calls: those of its bodies and those of its helpers. -/
theorem calls_intrinsic_iff (hused : ∀ intrinsic, intrinsic ∈ intrinsics bodies ↔
      ∃ fn ∈ functions, .intrinsic intrinsic ∈ allCallees fn.body) (intrinsic : Intrinsic) :
    (assemble config env bodies functions).calls (.intrinsic intrinsic) = true ↔
      intrinsic ∈ intrinsics bodies ++
        (Helper.closure (helpers bodies)).flatMap Helper.intrinsicDependencies := by
  rw [calls_assemble hfunctions, ← hused, mem_append, mem_flatMap]
  simp only [intrinsic_mem_callees]

end Assembled

/-- **A unit carries the runtime it calls.** Every call of a function of the source names a function
of the unit. The helpers of the unit are those that its functions, its top level or its helpers
call, in order and each once, and so are the intrinsics it imports. -/
theorem compile_carries_calls {config : Config} {env : Environment} {program : Program}
    {u : CompiledUnit} (hcompile : compile config env program = .ok u) :
    (∀ name, u.calls (.user name) = true → name ∈ u.functions.map (·.name)) ∧
      u.helpers = (Helper.all.filter fun helper => u.calls (.helper helper)).map
        (Helper.function config.listGrowthSlack) ∧ (u.helpers.map (·.name)).Nodup ∧
      u.intrinsics = Intrinsic.all.filter (fun intrinsic => u.calls (.intrinsic intrinsic)) ∧
      u.intrinsics.Nodup := by
  obtain ⟨extended, -, -, hcompiled⟩ := Compiled.of_compile hcompile
  obtain ⟨extended', functions, -, -, -, hfunctions, rfl⟩ := compile_eq_ok_iff.1 hcompile
  have hnonempty : functions ≠ [] := by
    rintro rfl
    rw [program.lowered_eq] at hfunctions
    simp at hfunctions
  refine ⟨fun name hcalled => ?_, ?_, hcompiled.helper_names, ?_, ?_⟩
  · rw [hcompiled.names, program.routine_names]
    rcases (calls_assemble hnonempty).1 hcalled with ⟨fn, hfn, hmem⟩ | ⟨helper, -, hmem⟩
    · obtain ⟨body, hbody, heq⟩ := (forall₂_lowered hfunctions).2 fn hfn
      exact (notes_of_lowered hbody heq).users name hmem
    · exact absurd hmem user_not_mem_callees
  · exact congrArg _ (closure_eq_filter
      (calls_helper_iff hnonempty (mem_helpers_of_lowered hfunctions)))
  · exact Intrinsic.inOrder_eq_filter
      (calls_intrinsic_iff hnonempty (mem_intrinsics_of_lowered hfunctions))
  · have hall : Intrinsic.all.Nodup := by decide
    exact hall.filter _

namespace Usage

/-- A unit that looks a key up, prints what it finds, and adds an empty list to another one. -/
def lookup : Program where
  stmts :=
    [.expr (.builtin1 .number .print (.index .number
      (.dict (.dict .string .number) [(.literal .string (.string "a"), .literal .number (.num 1))])
      (.literal .string (.string "a")))),
    .expr (.binary (.list .number) .plus (.list (.list .number) []) (.list (.list .number) []))]

/-- The unit carries the helper that compares keys, which only another helper calls, and imports the
intrinsic that this one reports missing keys to. -/
theorem lookup_carries : ∃ u, compile {} {} lookup = .ok u ∧
    u.helpers.map (·.name) = ["$list_copy", "$str_eq", "$dict_get"] ∧
    u.intrinsics = [.printNum, .keyError] ∧
    ∀ helper, helper.function 10 ∈ u.helpers → u.calls (.helper helper) = true := by
  obtain ⟨u, hu⟩ : ∃ u, compile {} {} lookup = .ok u := ⟨_, rfl⟩
  obtain ⟨-, hhelpers, -, -, -⟩ := compile_carries_calls hu
  refine ⟨u, hu, ?_, ?_, fun helper hmem => ?_⟩
  · cases hu
    rfl
  · cases hu
    rfl
  · rw [hhelpers] at hmem
    obtain ⟨found, hfound, heq⟩ := mem_map.1 hmem
    have hsame : found = helper := eq_of_name_eq (by
      rw [← name_function 10 found, ← name_function 10 helper]
      exact congrArg Func.name heq)
    exact hsame ▸ (mem_filter.1 hfound).2

end Usage

end TypedWasm
