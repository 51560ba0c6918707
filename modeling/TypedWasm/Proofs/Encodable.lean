import Mathlib.Data.List.Basic
import Mathlib.Data.List.GetD
import TypedWasm.Proofs.Discipline

/-!
# When a unit encodes

A unit has a valid module exactly when its function names differ, its export names differ, the
limits of its memory fit and every body keeps the stack discipline.
-/

namespace TypedWasm

open Failing List

theorem firstRepeated_eq_none_iff (names seen : List String) :
    firstRepeated seen names = none ↔ names.Nodup ∧ ∀ name ∈ names, name ∉ seen := by
  induction names generalizing seen with
  | nil => simp [firstRepeated]
  | cons name rest ih =>
    by_cases h : name ∈ seen
    · simp [firstRepeated, h]
    · simp only [firstRepeated, contains_eq_mem, h, decide_false, Bool.false_eq_true, if_false,
        ih, nodup_cons, mem_cons]
      constructor
      · rintro ⟨hnodup, hfresh⟩
        refine ⟨⟨fun hmem => hfresh name hmem (.inl rfl), hnodup⟩, ?_⟩
        rintro other (rfl | hmem)
        · exact h
        · exact fun hseen => hfresh other hmem (.inr hseen)
      · rintro ⟨⟨hname, hnodup⟩, hfresh⟩
        refine ⟨hnodup, fun other hmem => ?_⟩
        rintro (rfl | hseen)
        · exact hname hmem
        · exact hfresh other (.inr hmem) hseen

theorem Validate.repeatedExport_eq_none_iff (exports : List Export) (seen : List String)
    (index : Nat) : Validate.repeatedExport seen index exports = none ↔
      firstRepeated seen (exports.map (·.name)) = none := by
  induction exports generalizing seen index with
  | nil => simp [Validate.repeatedExport, firstRepeated]
  | cons entry rest ih =>
    by_cases h : entry.name ∈ seen
    · simp [Validate.repeatedExport, firstRepeated, h]
    · simpa [Validate.repeatedExport, firstRepeated, h] using ih _ _

/-- Limits a host accepts: the greatest number of pages is not below the least, and neither is past
what 32 bit addresses reach. -/
structure Limits.Fit (limits : Limits) : Prop where
  minimum : limits.minimum.toNat ≤ Validate.maxPages
  maximum : ∀ pages, limits.maximum = some pages →
    limits.minimum ≤ pages ∧ pages.toNat ≤ Validate.maxPages

theorem Validate.limits_eq_ok_iff (offset : Nat) (limits : Limits) :
    Validate.limits offset limits = .ok () ↔ limits.Fit := by
  obtain ⟨minimum, maximum⟩ := limits
  cases maximum with
  | none =>
    have hfit : Limits.Fit ⟨minimum, none⟩ ↔ minimum.toNat ≤ Validate.maxPages :=
      ⟨fun h => h.minimum, fun h => ⟨h, fun _ hnone => by cases hnone⟩⟩
    rw [hfit]
    by_cases h : Validate.maxPages < minimum.toNat
    · simp [Validate.limits, h]
    · simp [Validate.limits, h, pure, Except.pure, Nat.not_lt.1 h]
  | some pages =>
    have hfit : Limits.Fit ⟨minimum, some pages⟩ ↔ minimum ≤ pages ∧
        minimum.toNat ≤ Validate.maxPages ∧ pages.toNat ≤ Validate.maxPages :=
      ⟨fun h => ⟨(h.maximum pages rfl).1, h.minimum, (h.maximum pages rfl).2⟩,
        fun h => ⟨h.2.1, fun _ hsome => by cases hsome; exact ⟨h.1, h.2.2⟩⟩⟩
    rw [hfit]
    by_cases hlt : pages < minimum
    · have hnot : ¬ minimum ≤ pages := UInt32.not_le.2 hlt
      simp [Validate.limits, hlt, hnot, bind, Except.bind]
    · have hle : minimum ≤ pages := UInt32.not_lt.1 hlt
      by_cases hlarge : Validate.maxPages < minimum.toNat ∨ Validate.maxPages < pages.toNat
      · simp only [Validate.limits, hlt, Option.getD_some, if_false, if_pos hlarge, hle, true_and]
        simp only [reduceCtorEq, false_iff]
        omega
      · simp only [Validate.limits, hlt, Option.getD_some, if_false, if_neg hlarge, hle, true_and]
        simp only [pure, Except.pure, true_iff]
        omega

namespace CompiledUnit

variable (u : CompiledUnit) {index : Nat} {codes : List CodeEntry}

/-- The type of the function a call names, if the unit has or imports one. -/
def calleeType (u : CompiledUnit) : Callee → Option FuncType
  | .user name => (u.find? name).map functionType
  | .helper helper => (u.find? helper.name).map functionType
  | .intrinsic intrinsic =>
    if intrinsic ∈ u.intrinsics then some (intrinsicType intrinsic) else none

/-- What the names in a function of a unit stand for. -/
def scope (u : CompiledUnit) (fn : Func) : Discipline.Scope where
  hasLocal name := (fn.params ++ fn.locals).contains name
  typeOf := u.calleeType

/-- The types of the functions of a unit in the order of function indices. -/
def indexedTypes (u : CompiledUnit) : List FuncType :=
  u.intrinsics.map intrinsicType ++ u.allFunctions.map functionType

theorem typeAt_idxOf {type : FuncType} (h : type ∈ u.indexedTypes) :
    u.types.getD (u.types.idxOf type) default = type := by
  have hmem : type ∈ u.types := mem_eraseDups.2 h
  have hlt : u.types.idxOf type < u.types.length := idxOf_lt_length_of_mem hmem
  rw [getD_eq_getElem _ _ hlt, getElem_idxOf hlt]

/-- The type of an imported function, among the types of a module. -/
def importedType? (types : List FuncType) (entry : Import) : Option FuncType :=
  match entry.kind with
  | .function typeIndex => some (types.getD typeIndex default)
  | .memory _ => none

theorem functionTypes_eq (codes : List CodeEntry) :
    (u.moduleWith codes).functionTypes = u.indexedTypes := by
  have himports : u.imports.filterMap (importedType? u.types) = u.intrinsics.map intrinsicType := by
    have hmemory : (if u.config.importMemory then
        [({ module := u.config.memoryImportModule, name := u.config.memoryImportName,
            kind := .memory u.limits } :
              Import)] else []).filterMap (importedType? u.types) = [] := by
      split <;> rfl
    rw [imports, filterMap_append, hmemory, append_nil, filterMap_map, ← filterMap_eq_map]
    refine filterMap_congr fun intrinsic hmem => ?_
    have htype : intrinsicType intrinsic ∈ u.indexedTypes := mem_append_left _ (mem_map_of_mem hmem)
    exact congrArg some (u.typeAt_idxOf htype)
  have hfunctions : (u.allFunctions.map fun fn => u.types.idxOf (functionType fn)).map
      (fun index => u.types.getD index default) = u.allFunctions.map functionType := by
    rw [map_map]
    refine map_congr_left fun fn hmem => ?_
    exact u.typeAt_idxOf (mem_append_right _ (mem_map_of_mem hmem))
  exact congrArg₂ (· ++ ·) himports hfunctions

def typeAt (u : CompiledUnit) (index : Nat) : FuncType := u.indexedTypes.toArray.getD index default

theorem typeAt_import (h : index < u.intrinsics.length) :
    u.typeAt index = intrinsicType u.intrinsics[index] := by
  simp [typeAt, indexedTypes, Array.getD_eq_getD_getElem?, getElem?_append_left, h]

theorem typeAt_function (h : index < u.allFunctions.length) :
    u.typeAt (u.intrinsics.length + index) = functionType u.allFunctions[index] := by
  simp [typeAt, indexedTypes, Array.getD_eq_getD_getElem?, h]

theorem find?_of_findIdx? {name : String}
    (h : u.allFunctions.findIdx? (·.name == name) = some index) :
    (u.find? name).map functionType = some (u.typeAt (u.intrinsics.length + index)) := by
  obtain ⟨hlt, hname, hfirst⟩ := findIdx?_eq_some_iff_getElem.1 h
  have hfind : u.find? name = some u.allFunctions[index] := by
    refine find?_eq_some_iff_getElem.2 ⟨hname, index, hlt, rfl, ?_⟩
    intro j hj
    simpa using hfirst j hj
  rw [hfind, u.typeAt_function hlt]
  rfl

theorem mem_of_findIdx? {intrinsic : Intrinsic}
    (h : u.intrinsics.reverse.findIdx? (· == intrinsic) = some index) : intrinsic ∈ u.intrinsics ∧
      u.typeAt (u.intrinsics.length - 1 - index) = intrinsicType intrinsic := by
  obtain ⟨hlt, hfound, -⟩ := findIdx?_eq_some_iff_getElem.1 h
  rw [length_reverse] at hlt
  have hbound : u.intrinsics.length - 1 - index < u.intrinsics.length := by omega
  have hget : u.intrinsics[u.intrinsics.length - 1 - index] = intrinsic := by
    simpa [getElem_reverse] using hfound
  refine ⟨hget ▸ getElem_mem hbound, ?_⟩
  rw [u.typeAt_import hbound, hget]

theorem isSome_indexOfLocal? (fn : Func) (name : String) :
    (fn.indexOfLocal? name).isSome ↔ name ∈ fn.params ++ fn.locals := by
  simp [Func.indexOfLocal?]

theorem localIndex_ok_iff (fn : Func) (name : String) :
    (∃ index, localIndex fn name = .ok index) ↔ (fn.params ++ fn.locals).contains name = true := by
  rw [contains_iff_mem, ← isSome_indexOfLocal?, localIndex]
  cases fn.indexOfLocal? name <;> simp

theorem calleeIndex_eq_ok_iff {callee : Callee} :
    u.calleeIndex callee = .ok index ↔ u.index? callee = some index := by
  rw [calleeIndex]
  cases u.index? callee <;> simp

/-- A name has an index exactly when it has a type, and then it is the type of that index. -/
theorem namedIndex_type (name : String) :
    (u.find? name).map functionType = (u.namedIndex name).map u.typeAt := by
  cases hfind : u.allFunctions.findIdx? (·.name == name) with
  | none =>
    have hnone : u.find? name = none := by
      refine find?_eq_none.2 fun fn hmem => ?_
      simpa using findIdx?_eq_none_iff.1 hfind fn hmem
    rw [hnone, namedIndex, hfind]
    rfl
  | some index =>
    rw [u.find?_of_findIdx? hfind, namedIndex, hfind]
    rfl

theorem importIndex_type (intrinsic : Intrinsic) :
    (if intrinsic ∈ u.intrinsics then some (intrinsicType intrinsic) else none) =
      (u.importIndex intrinsic).map u.typeAt := by
  cases hfind : u.intrinsics.reverse.findIdx? (· == intrinsic) with
  | none =>
    have hnot : intrinsic ∉ u.intrinsics := by
      intro hmem
      simpa using findIdx?_eq_none_iff.1 hfind intrinsic (mem_reverse.2 hmem)
    rw [if_neg hnot, importIndex, hfind]
    rfl
  | some index =>
    obtain ⟨hmem, htype⟩ := u.mem_of_findIdx? hfind
    rw [if_pos hmem, importIndex, hfind, ← htype]
    rfl

/-- A callee has an index exactly when it has a type, and then it is the type of that index. -/
theorem calleeType_eq_some_iff (callee : Callee) (type : FuncType) : u.calleeType callee =
      some type ↔ ∃ index, u.calleeIndex callee = .ok index ∧ u.typeAt index = type := by
  simp only [calleeIndex_eq_ok_iff]
  cases callee with
  | user | helper => simp only [calleeType, index?, namedIndex_type, Option.map_eq_some_iff]
  | intrinsic => simp only [calleeType, index?, importIndex_type, Option.map_eq_some_iff]

theorem scope_resolves (fn : Func) :
    Discipline.Resolves (u.scope fn) u.typeAt (localIndex fn) u.calleeIndex where
  local_of_ok h := (localIndex_ok_iff fn _).1 ⟨_, h⟩
  ok_of_local h := (localIndex_ok_iff fn _).2 h
  type_of_ok h := (u.calleeType_eq_some_iff _ _).2 ⟨_, h, rfl⟩
  ok_of_type h :=
    let ⟨index, hindex, _⟩ := (u.calleeType_eq_some_iff _ _).1 h
    ⟨index, hindex⟩

theorem codeEntry_eq_ok_iff (fn : Func) (code : CodeEntry) : u.codeEntry fn = .ok code ↔
      ∃ ops, Resolve.body (localIndex fn) u.calleeIndex fn.body = .ok ops ∧
        { locals := fn.locals.length, body := ops } = code := by
  simp only [codeEntry, bind_eq_ok_iff, pure_eq_ok_iff]

theorem validateBodies_iff (fns : List Func) (h : fns.mapM u.codeEntry = .ok codes) (start : Nat) :
    Module.validateBodies u.typeAt start codes = .ok () ↔
      ∀ fn ∈ fns, Discipline.body (u.scope fn) fn.body = true := by
  induction fns generalizing codes start with
  | nil =>
    cases h
    simp [Module.validateBodies]
  | cons fn rest ih =>
    obtain ⟨code, codes, hcode, hcodes, rfl⟩ := mapM_cons_eq_ok_iff.1 h
    obtain ⟨ops, hops, rfl⟩ := (u.codeEntry_eq_ok_iff fn code).1 hcode
    have hbody := Discipline.body_validates_iff (u.scope_resolves fn) hops
    simp only [Module.validateBodies, bind_eq_ok_iff, forall_mem_cons]
    constructor
    · rintro ⟨_, hfirst, hrest⟩
      exact ⟨(hbody _).1 hfirst, (ih hcodes _).1 hrest⟩
    · rintro ⟨hfirst, hrest⟩
      exact ⟨(), (hbody _).2 hfirst, (ih hcodes _).2 hrest⟩

theorem exists_codes (fns : List Func)
    (h : ∀ fn ∈ fns, Discipline.body (u.scope fn) fn.body = true) :
    ∃ codes, fns.mapM u.codeEntry = .ok codes := by
  induction fns with
  | nil => exact ⟨[], rfl⟩
  | cons fn rest ih =>
    obtain ⟨ops, hops⟩ := Discipline.body_resolves (u.scope_resolves fn) (h fn mem_cons_self)
    obtain ⟨codes, hcodes⟩ := ih fun fn hmem => h fn (mem_cons_of_mem _ hmem)
    refine ⟨{ locals := fn.locals.length, body := ops } :: codes, ?_⟩
    exact mapM_cons_eq_ok_iff.2
      ⟨_, codes, (u.codeEntry_eq_ok_iff fn _).2 ⟨ops, hops, rfl⟩, hcodes, rfl⟩

theorem toModule_eq_ok_iff (m : Module) : u.toModule = .ok m ↔ (u.allFunctions.map (·.name)).Nodup ∧
      ∃ codes, u.allFunctions.mapM u.codeEntry = .ok codes ∧ u.moduleWith codes = m := by
  have hnames := firstRepeated_eq_none_iff (u.allFunctions.map (·.name)) []
  simp only [toModule]
  cases hrepeated : firstRepeated [] (u.allFunctions.map (·.name)) with
  | some name =>
    rw [hrepeated] at hnames
    simp at hnames
    simp [hnames]
  | none =>
    rw [hrepeated] at hnames
    simp at hnames
    simp only [hnames, true_and, bind_eq_ok_iff, pure_eq_ok_iff]

/-- A unit that a host accepts: its function names differ, its memory fits, its export names differ
and every body keeps the discipline. -/
structure Encodable (u : CompiledUnit) : Prop where
  names : (u.allFunctions.map (·.name)).Nodup
  limits : u.limits.Fit
  exports : (u.exports.map (·.name)).Nodup
  bodies : ∀ fn ∈ u.allFunctions, Discipline.body (u.scope fn) fn.body = true

theorem validateImports_iff (m : Module) : m.validateImports = .ok () ↔
      ∀ entry ∈ m.imports, ∀ bounds, entry.kind = .memory bounds → bounds.Fit := by
  rw [Module.validateImports, forM_eq_ok_iff]
  constructor
  · intro h entry hmem bounds hkind
    obtain ⟨index, hindex, rfl⟩ := getElem_of_mem hmem
    have hpass := h (m.imports[index], index) (mk_mem_zipIdx_iff_getElem?.2 (by simp [hindex]))
    simp only [hkind] at hpass
    exact (Validate.limits_eq_ok_iff _ bounds).1 hpass
  · rintro h ⟨entry, index⟩ hmem
    cases hkind : entry.kind with
    | function => simp only [hkind]
    | memory bounds =>
      have hentry := mem_of_getElem? (mk_mem_zipIdx_iff_getElem?.1 hmem)
      simp only [hkind]
      exact (Validate.limits_eq_ok_iff _ bounds).2 (h entry hentry bounds hkind)

theorem validateMemories_iff (codes : List CodeEntry) :
    (u.moduleWith codes).validateImports = .ok () ∧ (u.moduleWith codes).validateMemory = .ok () ↔
      u.limits.Fit := by
  rw [validateImports_iff]
  by_cases himport : u.config.importMemory
  · constructor
    · rintro ⟨h, -⟩
      exact h ⟨u.config.memoryImportModule, u.config.memoryImportName, .memory u.limits⟩
        (by simp [moduleWith, imports, himport]) u.limits rfl
    · intro hfit
      refine ⟨?_, by simp [Module.validateMemory, moduleWith, himport]⟩
      intro entry hmem bounds hkind
      simp only [moduleWith, imports, himport, if_true, mem_append, mem_map, mem_singleton] at hmem
      rcases hmem with ⟨intrinsic, -, rfl⟩ | rfl
      · cases hkind
      · cases hkind
        exact hfit
  · constructor
    · rintro ⟨-, h⟩
      simp only [Module.validateMemory, moduleWith, himport] at h
      exact (Validate.limits_eq_ok_iff _ _).1 h
    · intro hfit
      refine ⟨?_, ?_⟩
      · intro entry hmem bounds hkind
        simp only [moduleWith, imports, himport, Bool.false_eq_true, if_false, append_nil,
          mem_map] at hmem
        obtain ⟨intrinsic, -, rfl⟩ := hmem
        cases hkind
      · simp only [Module.validateMemory, moduleWith, himport]
        exact (Validate.limits_eq_ok_iff _ _).2 hfit

theorem validateExports_iff (m : Module) :
    m.validateExports = .ok () ↔ (m.exports.map (·.name)).Nodup := by
  have hiff := Validate.repeatedExport_eq_none_iff m.exports [] 0
  rw [firstRepeated_eq_none_iff] at hiff
  rw [Module.validateExports]
  cases h : Validate.repeatedExport [] 0 m.exports with
  | none =>
    rw [h] at hiff
    simpa using hiff
  | some found =>
    rw [h] at hiff
    simpa using hiff

theorem validate_iff (h : u.allFunctions.mapM u.codeEntry = .ok codes) :
    (u.moduleWith codes).validate = .ok () ↔ u.limits.Fit ∧ (u.exports.map (·.name)).Nodup ∧
      ∀ fn ∈ u.allFunctions, Discipline.body (u.scope fn) fn.body = true := by
  have htypes : (fun index => (u.moduleWith codes).functionTypes.toArray.getD index default) =
      u.typeAt := by
    rw [functionTypes_eq]
    rfl
  simp only [Module.validate, bind_eq_ok_iff, htypes]
  rw [← u.validateMemories_iff codes, ← u.validateBodies_iff _ h]
  have hexports := validateExports_iff (u.moduleWith codes)
  constructor
  · rintro ⟨_, himports, _, hmemory, _, hexport, hbodies⟩
    exact ⟨⟨himports, hmemory⟩, hexports.1 hexport, hbodies⟩
  · rintro ⟨⟨himports, hmemory⟩, hexport, hbodies⟩
    exact ⟨(), himports, (), hmemory, (), hexports.2 hexport, hbodies⟩

/-- The names in an encodable unit have indices, and its module is valid. -/
theorem Encodable.encodes {u : CompiledUnit} (h : u.Encodable) :
    ∃ m, u.toModule = .ok m ∧ m.validate = .ok () ∧ u.encode = .ok m.bytes := by
  obtain ⟨codes, hcodes⟩ := u.exists_codes _ h.bodies
  have hm := (u.toModule_eq_ok_iff _).2 ⟨h.names, codes, hcodes, rfl⟩
  have hvalid := (u.validate_iff hcodes).2 ⟨h.limits, h.exports, h.bodies⟩
  refine ⟨_, hm, hvalid, bind_eq_ok_iff.2 ⟨_, hm, ?_⟩⟩
  by_cases hvalidate : u.config.validateOutput = true
  · rw [if_pos hvalidate, hvalid]
    rfl
  · rw [if_neg hvalidate]
    rfl

/-- **When a unit encodes.** With validation on, a unit encodes exactly when it is encodable. -/
theorem encode_ok_iff (hvalidate : u.config.validateOutput = true) :
    (∃ bytes, u.encode = .ok bytes) ↔ u.Encodable := by
  constructor
  · rintro ⟨bytes, h⟩
    obtain ⟨m, hm, h⟩ := bind_eq_ok_iff.1 h
    obtain ⟨hnames, codes, hcodes, rfl⟩ := (u.toModule_eq_ok_iff m).1 hm
    rw [if_pos hvalidate] at h
    cases hvalid : (u.moduleWith codes).validate with
    | error found =>
      rw [hvalid] at h
      cases h
    | ok =>
      obtain ⟨hlimits, hexports, hbodies⟩ := (u.validate_iff hcodes).1 hvalid
      exact ⟨hnames, hlimits, hexports, hbodies⟩
  · intro h
    obtain ⟨m, -, -, hbytes⟩ := h.encodes
    exact ⟨m.bytes, hbytes⟩

end CompiledUnit

end TypedWasm
