import TypedWasm.Proofs.Encodable

/-!
# Faults of encoding

Without validation a unit fails to encode for three reasons only: two functions share a name, an
instruction names a local its function does not have, or a call names a function the unit does not
have. A shared name is reported first, and otherwise the first faulty instruction.
-/

namespace TypedWasm

open List Option

namespace Failing

variable {ε α β : Type}

/-- Why a step failed. -/
def fault? : Except ε α → Option ε
  | .error fault => some fault
  | .ok _ => none

theorem fault?_eq_some_iff {step : Except ε α} {fault : ε} :
    fault? step = some fault ↔ step = .error fault := by
  cases step <;> simp [fault?]

/-- If the steps after a first one fail alike whatever it gave, the first to fail counts. -/
theorem fault?_bind {step : Except ε α} {next : α → Except ε β} {later : Option ε}
    (h : ∀ value, fault? (next value) = later) :
      fault? (step >>= next) = (fault? step).or later := by
  cases step with
  | error => rfl
  | ok value => exact h value

theorem fault?_then {step : Except ε α} {next : α → Except ε β}
    (h : ∀ value, fault? (next value) = none) : fault? (step >>= next) = fault? step := by
  rw [fault?_bind h, or_none]

theorem fault?_mapM {f : α → Except ε β} (items : List α) :
    fault? (items.mapM f) = items.findSome? fun item => fault? (f item) := by
  induction items with
  | nil => rfl
  | cons first rest ih =>
    have hrest : ∀ value, fault? (rest.mapM f >>= fun values => pure (value :: values)) =
        rest.findSome? fun item => fault? (f item) := by
      intro value
      rw [fault?_then fun _ => rfl, ih]
    rw [mapM_cons, fault?_bind hrest, findSome?_cons]
    cases fault? (f first) <;> rfl

end Failing

open Failing (fault? fault?_bind fault?_then fault?_mapM fault?_eq_some_iff)

/-- The first name that occurred before follows a list of distinct names. -/
theorem firstRepeated_eq_some_iff {names seen : List String} {name : String} :
    firstRepeated seen names = some name ↔ ∃ before after, names = before ++ name :: after ∧
      firstRepeated seen before = none ∧ (name ∈ before ∨ name ∈ seen) := by
  induction names generalizing seen with
  | nil => simp [firstRepeated]
  | cons first rest ih =>
    by_cases hseen : first ∈ seen
    · have hfirst : ∀ rest, firstRepeated seen (first :: rest) = some first := fun rest => by
        simp [firstRepeated, hseen]
      rw [hfirst]
      constructor
      · rintro ⟨⟩
        exact ⟨[], rest, rfl, rfl, .inr hseen⟩
      · rintro ⟨_ | ⟨_, before⟩, after, hnames, hnone, -⟩
        · exact congrArg some (List.cons.inj hnames).1
        · obtain ⟨rfl, -⟩ := List.cons.inj hnames
          rw [hfirst] at hnone
          cases hnone
    · have hlater : ∀ rest, firstRepeated seen (first :: rest) =
          firstRepeated (first :: seen) rest :=
        fun rest => by simp [firstRepeated, hseen]
      rw [hlater, ih]
      constructor
      · rintro ⟨before, after, rfl, hnone, hname⟩
        refine ⟨first :: before, after, rfl, (hlater before).trans hnone, ?_⟩
        simp only [mem_cons] at hname ⊢
        tauto
      · rintro ⟨_ | ⟨_, before⟩, after, hnames, hnone, hname⟩
        · obtain ⟨rfl, -⟩ := List.cons.inj hnames
          simp [hseen] at hname
        · obtain ⟨rfl, rfl⟩ := List.cons.inj hnames
          refine ⟨before, after, rfl, (hlater before).symm.trans hnone, ?_⟩
          simp only [mem_cons] at hname ⊢
          tauto

namespace CompiledUnit

variable (u : CompiledUnit) (fn : Func)

/-- Whether a unit has the function that a call names. -/
def hasCallee : Callee → Bool
  | .user name => u.allFunctions.any (·.name == name)
  | .helper helper => u.allFunctions.any (·.name == helper.name)
  | .intrinsic intrinsic => u.intrinsics.contains intrinsic

/-- What is wrong with an instruction of a function, those inside it apart. -/
def faultOf : Instr → Option Fault
  | .localGet name | .localSet name | .localTee name =>
    if name ∈ fn.params ++ fn.locals then none else some (.undeclaredLocal name fn.name)
  | .call callee => if u.hasCallee callee then none else some (.unknownCallee callee)
  | _ => none

theorem fault?_localIndex (name : String) :
    fault? (localIndex fn name) =
      if name ∈ fn.params ++ fn.locals then none else some (.undeclaredLocal name fn.name) := by
  simp only [localIndex, ← isSome_indexOfLocal?]
  cases fn.indexOfLocal? name <;> rfl

theorem fault?_calleeIndex (callee : Callee) :
    fault? (u.calleeIndex callee) =
      if u.hasCallee callee then none else some (.unknownCallee callee) := by
  have hfound : u.hasCallee callee ↔ (u.index? callee).isSome := by
    cases callee <;> simp [index?, namedIndex, importIndex, hasCallee]
  simp only [calleeIndex, hfound]
  cases u.index? callee <;> rfl

mutual

theorem fault?_instr : (i : Instr) →
    fault? (Resolve.instr (localIndex fn) u.calleeIndex i) = i.preorder.findSome? (u.faultOf fn)
  | .localGet name | .localSet name | .localTee name => by
    simp only [Resolve.instr, InstrOf.preorder, findSome?_singleton, faultOf]
    rw [fault?_then fun _ => rfl, fault?_localIndex]
  | .call callee => by
    simp only [Resolve.instr, InstrOf.preorder, findSome?_singleton, faultOf]
    rw [fault?_then fun _ => rfl, fault?_calleeIndex]
  | .block body | .loop body => by
    simp only [Resolve.instr, InstrOf.preorder, findSome?_cons, faultOf]
    rw [fault?_then fun _ => rfl, fault?_body body]
  | .cond yields thenBody elseBody => by
    simp only [Resolve.instr, InstrOf.preorder, findSome?_cons, findSome?_append, faultOf]
    rw [fault?_bind fun _ => fault?_then fun _ => rfl, fault?_body thenBody, fault?_body elseBody]
  | .const _ | .load _ | .store _ | .numeric _ | .eqz | .memorySize | .memoryGrow | .drop | .ret
  | .unreachable | .nop | .br _ | .brIf _ => rfl

theorem fault?_body : (code : Code) →
    fault? (Resolve.body (localIndex fn) u.calleeIndex code) =
      (InstrOf.allPreorder code).findSome? (u.faultOf fn)
  | [] => rfl
  | i :: rest => by
    simp only [Resolve.body, InstrOf.allPreorder, findSome?_append]
    rw [fault?_bind fun _ => fault?_then fun _ => rfl, fault?_instr i, fault?_body rest]

end

theorem fault?_codeEntry :
    fault? (u.codeEntry fn) = (InstrOf.allPreorder fn.body).findSome? (u.faultOf fn) := by
  rw [← fault?_body, codeEntry, fault?_then fun _ => rfl]

theorem fault?_encode (h : u.config.validateOutput = false) :
    fault? u.encode = ((firstRepeated [] (u.allFunctions.map (·.name))).map .duplicateFunction).or
      (u.allFunctions.findSome? fun fn =>
        (InstrOf.allPreorder fn.body).findSome? (u.faultOf fn)) := by
  rw [encode, fault?_then fun _ => by rw [h]; rfl, toModule]
  split
  · next hrepeated => rw [hrepeated]; rfl
  · next hrepeated =>
    rw [hrepeated, fault?_then fun _ => rfl, fault?_mapM]
    simp only [fault?_codeEntry, map_none, none_or]

end CompiledUnit

/-- **When a unit fails to encode.** Without validation it fails exactly if two of its functions
share a name, or an instruction at any depth names a local or a function that is not there. The
first function whose name occurred before is reported if there is one, and otherwise the first
faulty instruction of the first function that has one. -/
theorem encode_fails_iff (u : CompiledUnit) (h : u.config.validateOutput = false) :
    ((∃ fault, u.encode = .error fault) ↔ ¬ (u.allFunctions.map (·.name)).Nodup ∨
        ∃ fn ∈ u.allFunctions, ∃ i ∈ InstrOf.allPreorder fn.body, u.faultOf fn i ≠ none) ∧
    ∀ fault, u.encode = .error fault ↔ (∃ before fn after, u.allFunctions = before ++ fn :: after ∧
        (before.map (·.name)).Nodup ∧ fn.name ∈ before.map (·.name) ∧
        fault = .duplicateFunction fn.name) ∨ ((u.allFunctions.map (·.name)).Nodup ∧
        ∃ before fn after, u.allFunctions = before ++ fn :: after ∧
          (∃ earlier i later, InstrOf.allPreorder fn.body = earlier ++ i :: later ∧
            u.faultOf fn i = some fault ∧ ∀ j ∈ earlier, u.faultOf fn j = none) ∧
          ∀ other ∈ before, ∀ i ∈ InstrOf.allPreorder other.body, u.faultOf other i = none) := by
  have hnodup : ∀ names, firstRepeated [] names = none ↔ names.Nodup := fun names => by
    simp [firstRepeated_eq_none_iff]
  constructor
  · simp only [← fault?_eq_some_iff, ← isSome_iff_exists, u.fault?_encode h, isSome_or, isSome_map,
      Bool.or_eq_true, findSome?_isSome_iff, ← hnodup, ← isSome_iff_ne_none]
  · intro fault
    rw [← fault?_eq_some_iff, u.fault?_encode h, or_eq_some_iff, map_eq_none_iff, hnodup]
    refine or_congr ⟨?_, ?_⟩ (and_congr_right fun _ => ?_)
    · intro hmap
      obtain ⟨name, hrepeated, rfl⟩ := map_eq_some_iff.1 hmap
      obtain ⟨before, after, hnames, hnone, hname⟩ := firstRepeated_eq_some_iff.1 hrepeated
      obtain ⟨fns, rest, hfns, rfl, hrest⟩ := map_eq_append_iff.1 hnames
      obtain ⟨fn, rest, rfl, rfl, rfl⟩ := map_eq_cons_iff.1 hrest
      exact ⟨fns, fn, rest, hfns, (hnodup _).1 hnone, by simpa using hname, rfl⟩
    · rintro ⟨before, fn, after, hfns, hdistinct, hname, rfl⟩
      refine map_eq_some_iff.2 ⟨fn.name, firstRepeated_eq_some_iff.2 ?_, rfl⟩
      refine ⟨before.map (·.name), after.map (·.name), ?_, (hnodup _).2 hdistinct, .inl hname⟩
      rw [hfns, map_append, map_cons]
    · simp only [findSome?_eq_some_iff, findSome?_eq_none_iff]

namespace Faults

/-- A unit whose main calls a function it does not have, inside a loop inside a conditional, and
then writes a local that is not declared. -/
def straying : CompiledUnit where
  main := {
    name := mainName
    locals := ["x"]
    body := [.localGet "x", .when [.loop [.call (.user "f")]], .localSet "y", .const 0] }
  config := { validateOutput := false }

/-- The same with a second function of main's name. -/
def repeating : CompiledUnit := { straying with helpers := [{ name := mainName }] }

theorem straying_fails : straying.encode = .error (.unknownCallee (.user "f")) ∧
      repeating.encode = .error (.duplicateFunction mainName) := by
  refine ⟨((encode_fails_iff straying rfl).2 _).2
    (.inr ⟨by decide, [], straying.main, [], rfl, ?_, nofun⟩),
    ((encode_fails_iff repeating rfl).2 _).2 (.inl ⟨[straying.main], _, [], rfl, ?_⟩)⟩
  · refine ⟨[.localGet "x", .when [.loop [.call (.user "f")]], .loop [.call (.user "f")]],
      .call (.user "f"), [.localSet "y", .const 0], rfl, rfl, ?_⟩
    simp [CompiledUnit.faultOf, straying, Instr.when]
  · exact ⟨by simp, mem_singleton_self _, rfl⟩

end Faults

end TypedWasm
