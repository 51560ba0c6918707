import Mathlib.Data.List.Forall2
import TypedWasm.Proofs.Binary.RoundTrip
import TypedWasm.Proofs.Bytes
import TypedWasm.Proofs.Encodable

/-!
# What the bytes of a unit stand for

The bytes of a unit decode to a module that represents it: every type, import, function, export and
byte of the module is accounted for by the unit, and every instruction by the one of the same place.
-/

namespace TypedWasm

open Failing List Option Word

namespace CompiledUnit

/-- The index of the function with a name: functions come after all the imports. -/
def FunctionAt (u : CompiledUnit) (name : String) (index : Nat) : Prop :=
  ∃ place fn, u.allFunctions[place]? = some fn ∧ fn.name = name ∧
    index = u.intrinsics.length + place

/-- The function index a call goes to. Of an intrinsic listed twice the last import counts. -/
def CalleeAt (u : CompiledUnit) : Callee → Nat → Prop
  | .user name, index => u.FunctionAt name index
  | .helper helper, index => u.FunctionAt helper.name index
  | .intrinsic intrinsic, index => u.intrinsics[index]? = some intrinsic ∧
    ∀ later, index < later → u.intrinsics[later]? ≠ some intrinsic

end CompiledUnit

/-- An instruction by index stands for one by name, given what stands for local names and
callees. -/
inductive Denotes (localAt : String → Nat → Prop) (calleeAt : Callee → Nat → Prop) :
    Instr → Op → Prop
  | const (value : Word) : Denotes localAt calleeAt (.const value) (.const value)
  | localGet {name : String} {index : Nat} (h : localAt name index) :
    Denotes localAt calleeAt (.localGet name) (.localGet index)
  | localSet {name : String} {index : Nat} (h : localAt name index) :
    Denotes localAt calleeAt (.localSet name) (.localSet index)
  | localTee {name : String} {index : Nat} (h : localAt name index) :
    Denotes localAt calleeAt (.localTee name) (.localTee index)
  | load (offset : UInt32) : Denotes localAt calleeAt (.load offset) (.load offset)
  | store (offset : UInt32) : Denotes localAt calleeAt (.store offset) (.store offset)
  | numeric (op : NumericOp) : Denotes localAt calleeAt (.numeric op) (.numeric op)
  | eqz : Denotes localAt calleeAt .eqz .eqz
  | memorySize : Denotes localAt calleeAt .memorySize .memorySize
  | memoryGrow : Denotes localAt calleeAt .memoryGrow .memoryGrow
  | call {callee : Callee} {index : Nat} (h : calleeAt callee index) :
    Denotes localAt calleeAt (.call callee) (.call index)
  | drop : Denotes localAt calleeAt .drop .drop
  | ret : Denotes localAt calleeAt .ret .ret
  | unreachable : Denotes localAt calleeAt .unreachable .unreachable
  | nop : Denotes localAt calleeAt .nop .nop
  | block {body : Code} {ops : List Op}
    (h : List.Forall₂ (Denotes localAt calleeAt) body ops) :
    Denotes localAt calleeAt (.block body) (.block ops)
  | loop {body : Code} {ops : List Op}
    (h : List.Forall₂ (Denotes localAt calleeAt) body ops) :
    Denotes localAt calleeAt (.loop body) (.loop ops)
  | cond (yields : Bool) {thenBody elseBody : Code} {thenOps elseOps : List Op}
    (hthen : List.Forall₂ (Denotes localAt calleeAt) thenBody thenOps)
    (helse : List.Forall₂ (Denotes localAt calleeAt) elseBody elseOps) :
    Denotes localAt calleeAt (.cond yields thenBody elseBody) (.cond yields thenOps elseOps)
  | br (depth : UInt32) : Denotes localAt calleeAt (.br depth) (.br depth)
  | brIf (depth : UInt32) : Denotes localAt calleeAt (.brIf depth) (.brIf depth)

namespace Module

/-- The import of an intrinsic, with the intrinsic's own type. -/
def ImportsIntrinsic (m : Module) (u : CompiledUnit) (intrinsic : Intrinsic) (entry : Import) :
    Prop :=
  entry.module = u.config.intrinsicsModule ∧ entry.name = intrinsic.importName ∧
    ∃ typeIndex, entry.kind = .function typeIndex ∧ m.types[typeIndex]? =
      some { params := intrinsic.arity, returnsValue := intrinsic.returnsValue }

/-- The body of a function: as many locals, and the same instructions with indices for names. -/
def ImplementsBody (u : CompiledUnit) (fn : Func) (code : CodeEntry) : Prop :=
  code.locals = fn.locals.length ∧
    List.Forall₂ (Denotes (fun name index => fn.indexOfLocal? name = some index) u.CalleeAt)
      fn.body code.body

structure Represents (m : Module) (u : CompiledUnit) : Prop where
  /-- The types are those in use, each once, in the order of their first use. -/
  types : ∀ type, type ∈ m.types ↔ type ∈ u.indexedTypes
  types_distinct : m.types.Nodup
  types_ordered : m.types.Pairwise fun first second =>
    u.indexedTypes.idxOf first < u.indexedTypes.idxOf second
  /-- There is one import for each intrinsic, and after them the memory when the host owns it. -/
  imports : List.Forall₂ (m.ImportsIntrinsic u) u.intrinsics (m.imports.take u.intrinsics.length)
  memoryImport : m.imports.drop u.intrinsics.length =
    if u.config.importMemory then
      [{ module := u.config.memoryImportModule, name := u.config.memoryImportName,
         kind := .memory { minimum := u.config.minMemoryPages, maximum := u.config.maxMemoryPages }
           }]
    else []
  /-- Functions take their parameters and leave one word. -/
  functions : List.Forall₂ (fun fn typeIndex =>
    m.types[typeIndex]? = some { params := fn.params.length, returnsValue := true })
    u.allFunctions m.functions
  codes : List.Forall₂ (ImplementsBody u) u.allFunctions m.codes
  /-- A name is that of one function. -/
  names : (u.allFunctions.map (·.name)).Nodup
  functionExports : ∀ name index, { name, kind := .function index } ∈ m.exports ↔
    ∃ place fn, u.allFunctions[place]? = some fn ∧ fn.exported = true ∧ fn.name = name ∧
      index = u.intrinsics.length + place
  memoryExport : ∀ name, { name, kind := .memory } ∈ m.exports ↔
    u.config.importMemory = false ∧ name = "memory"
  exports_distinct : m.exports.Nodup
  memory : m.memory = if u.config.importMemory then none else
    some { minimum := u.config.minMemoryPages, maximum := u.config.maxMemoryPages }
  /-- The heap head is set to the start of the heap, lowest byte first. -/
  data : m.data = if u.config.importMemory then none else
    some ((List.range 4).map fun place => UInt8.ofNat (u.config.heapStart.toNat / 256 ^ place))

end Module

section FirstUse

variable {α : Type} [DecidableEq α] (items : List α)

theorem idxOf_lt_of_filter (keep : α → Bool) (items : List α) {first second : α}
    (hfirst : keep first = true) (hsecond : keep second = true)
    (h : (items.filter keep).idxOf first < (items.filter keep).idxOf second) :
    items.idxOf first < items.idxOf second := by
  induction items with
  | nil => simp at h
  | cons item rest ih =>
    by_cases hitem : item = first
    · subst hitem
      by_cases hother : item = second
      · subst hother
        exact absurd h (Nat.lt_irrefl _)
      · rw [idxOf_cons_self, idxOf_cons_ne _ hother]
        omega
    · by_cases hother : item = second
      · subst hother
        rw [filter_cons_of_pos hsecond, idxOf_cons_self] at h
        omega
      · rw [idxOf_cons_ne _ hitem, idxOf_cons_ne _ hother]
        refine Nat.succ_lt_succ (ih ?_)
        by_cases hkeep : keep item = true
        · rw [filter_cons_of_pos hkeep, idxOf_cons_ne _ hitem, idxOf_cons_ne _ hother] at h
          omega
        · rwa [filter_cons_of_neg hkeep] at h

theorem pairwise_eraseDups :
    items.eraseDups.Pairwise fun first second => items.idxOf first < items.idxOf second := by
  induction hlength : items.length using Nat.strong_induction_on generalizing items with
  | _ count ih =>
    cases items with
    | nil => simp
    | cons item rest =>
      have hrest : (rest.filter fun other => !other == item).length < count := by
        have hle := length_filter_le (fun other => !other == item) rest
        simp only [length_cons] at hlength
        omega
      have hne : ∀ other ∈ (rest.filter fun other => !other == item).eraseDups, item ≠ other := by
        rintro other hmem rfl
        simp at hmem
      rw [eraseDups_cons, pairwise_cons]
      refine ⟨fun other hmem => ?_, ?_⟩
      · rw [idxOf_cons_self, idxOf_cons_ne _ (hne other hmem)]
        omega
      · refine (ih _ hrest _ rfl).imp_of_mem fun {first second} hfirst hsecond hlt => ?_
        rw [idxOf_cons_ne _ (hne first hfirst), idxOf_cons_ne _ (hne second hsecond)]
        refine Nat.succ_lt_succ (idxOf_lt_of_filter _ rest ?_ ?_ hlt)
        · simp [(hne first hfirst).symm]
        · simp [(hne second hsecond).symm]

theorem nodup_eraseDups : items.eraseDups.Nodup :=
  (pairwise_eraseDups items).imp fun hlt heq => absurd (heq ▸ hlt) (Nat.lt_irrefl _)

end FirstUse

namespace Resolve

variable {localIndex : String → Except Fault Nat} {calleeIndex : Callee → Except Fault Nat}
  {localAt : String → Nat → Prop} {calleeAt : Callee → Nat → Prop}

mutual

theorem instr_denotes
    (hlocal : ∀ {name index}, localIndex name = .ok index → localAt name index)
    (hcallee : ∀ {callee index}, calleeIndex callee = .ok index → calleeAt callee index) :
    ∀ (i : Instr) {op : Op}, instr localIndex calleeIndex i = .ok op →
      Denotes localAt calleeAt i op := by
  intro i op h
  cases i with
  | localGet | localSet | localTee =>
    obtain ⟨index, hindex, rfl⟩ := Discipline.resolved h
    constructor
    exact hlocal hindex
  | call callee =>
    obtain ⟨index, hindex, rfl⟩ := Discipline.resolved h
    exact .call (hcallee hindex)
  | block inner =>
    obtain ⟨ops, hops, ho⟩ := bind_eq_ok_iff.1 h
    cases ho
    exact .block (body_denotes hlocal hcallee inner hops)
  | loop inner =>
    obtain ⟨ops, hops, ho⟩ := bind_eq_ok_iff.1 h
    cases ho
    exact .loop (body_denotes hlocal hcallee inner hops)
  | cond yields thenBody elseBody =>
    obtain ⟨thenOps, hthen, h⟩ := bind_eq_ok_iff.1 h
    obtain ⟨elseOps, helse, ho⟩ := bind_eq_ok_iff.1 h
    cases ho
    exact .cond yields (body_denotes hlocal hcallee thenBody hthen)
      (body_denotes hlocal hcallee elseBody helse)
  | _ =>
    cases h
    constructor

theorem body_denotes
    (hlocal : ∀ {name index}, localIndex name = .ok index → localAt name index)
    (hcallee : ∀ {callee index}, calleeIndex callee = .ok index → calleeAt callee index) :
    ∀ (code : Code) {ops : List Op}, body localIndex calleeIndex code = .ok ops →
      List.Forall₂ (Denotes localAt calleeAt) code ops := by
  intro code ops h
  cases code with
  | nil => cases h; exact .nil
  | cons first rest =>
    obtain ⟨op, hop, h⟩ := bind_eq_ok_iff.1 h
    obtain ⟨ops, hops, ho⟩ := bind_eq_ok_iff.1 h
    cases ho
    exact .cons (instr_denotes hlocal hcallee first hop) (body_denotes hlocal hcallee rest hops)

end

mutual

theorem fits_of_denotes (hlocal : ∀ {name index}, localAt name index → index < 2 ^ 32)
    (hcallee : ∀ {callee index}, calleeAt callee index → index < 2 ^ 32) :
    ∀ (op : Op) {i : Instr}, Denotes localAt calleeAt i op → Encode.Fits op := by
  intro op i h
  cases h with
  | localGet h => exact hlocal h
  | localSet h => exact hlocal h
  | localTee h => exact hlocal h
  | call h => exact hcallee h
  | block h => exact allFit_of_denotes hlocal hcallee _ h
  | loop h => exact allFit_of_denotes hlocal hcallee _ h
  | cond _ hthen helse =>
      exact ⟨allFit_of_denotes hlocal hcallee _ hthen, allFit_of_denotes hlocal hcallee _ helse⟩
  | const | load | store | numeric | eqz | memorySize | memoryGrow | drop | ret | unreachable
  | nop | br | brIf => trivial

theorem allFit_of_denotes (hlocal : ∀ {name index}, localAt name index → index < 2 ^ 32)
    (hcallee : ∀ {callee index}, calleeAt callee index → index < 2 ^ 32) :
    ∀ (ops : List Op) {code : Code},
      List.Forall₂ (Denotes localAt calleeAt) code ops → Encode.AllFit ops := by
  intro ops code h
  cases h with
  | nil => trivial
  | cons hfirst hrest =>
      exact ⟨fits_of_denotes hlocal hcallee _ hfirst, allFit_of_denotes hlocal hcallee _ hrest⟩

end

end Resolve

namespace CompiledUnit

variable {name : String} {index : Nat} {codes : List CodeEntry} (u : CompiledUnit) {callee : Callee}
  {entry : Export}

theorem localIndex_eq_ok_iff {fn : Func} :
    localIndex fn name = .ok index ↔ fn.indexOfLocal? name = some index := by
  rw [localIndex]
  cases fn.indexOfLocal? name <;> simp

theorem functionAt_of_namedIndex (h : u.namedIndex name = some index) :
    u.FunctionAt name index := by
  obtain ⟨place, hplace, rfl⟩ := map_eq_some_iff.1 h
  obtain ⟨hlt, hname, -⟩ := findIdx?_eq_some_iff_getElem.1 hplace
  exact ⟨place, _, getElem?_eq_getElem hlt, eq_of_beq hname, rfl⟩

theorem getElem?_of_importIndex {intrinsic : Intrinsic} (h : u.importIndex intrinsic = some index) :
    u.intrinsics[index]? = some intrinsic ∧
      ∀ later, index < later → u.intrinsics[later]? ≠ some intrinsic := by
  obtain ⟨place, hplace, rfl⟩ := map_eq_some_iff.1 h
  obtain ⟨hlt, hfound, hfirst⟩ := findIdx?_eq_some_iff_getElem.1 hplace
  rw [length_reverse] at hlt
  refine ⟨?_, fun later hlater hsome => ?_⟩
  · rw [getElem_reverse] at hfound
    rw [getElem?_eq_getElem (by omega), eq_of_beq hfound]
  · obtain ⟨hbound, hget⟩ := List.getElem?_eq_some_iff.1 hsome
    have hnot := hfirst (u.intrinsics.length - 1 - later) (by omega)
    have hplace' : u.intrinsics.length - 1 - (u.intrinsics.length - 1 - later) = later := by omega
    simp [getElem_reverse, hplace', hget] at hnot

theorem calleeAt_of_calleeIndex (h : u.calleeIndex callee = .ok index) :
    u.CalleeAt callee index := by
  rw [calleeIndex_eq_ok_iff] at h
  cases callee with
  | user | helper => exact u.functionAt_of_namedIndex h
  | intrinsic => exact u.getElem?_of_importIndex h

theorem CalleeAt.lt {u : CompiledUnit} (h : u.CalleeAt callee index) :
    index < u.intrinsics.length + u.allFunctions.length := by
  have hfunction : ∀ {name}, u.FunctionAt name index →
      index < u.intrinsics.length + u.allFunctions.length := by
    rintro name ⟨place, fn, hplace, -, rfl⟩
    have hlt := (List.getElem?_eq_some_iff.1 hplace).1
    omega
  cases callee with
  | user name => exact hfunction h
  | helper helper => exact hfunction h
  | intrinsic intrinsic =>
    have hlt := (List.getElem?_eq_some_iff.1 h.1).1
    omega

theorem types_getElem?_idxOf {type : FuncType} (h : type ∈ u.indexedTypes) :
    u.types[u.types.idxOf type]? = some type := by
  have hlt : u.types.idxOf type < u.types.length := idxOf_lt_length_of_mem (mem_eraseDups.2 h)
  rw [getElem?_eq_getElem hlt, getElem_idxOf hlt]

theorem codes_implement {fns : List Func} (h : fns.mapM u.codeEntry = .ok codes) :
    List.Forall₂ (Module.ImplementsBody u) fns codes := by
  induction fns generalizing codes with
  | nil =>
    cases h
    exact .nil
  | cons fn rest ih =>
    obtain ⟨code, codes, hcode, hcodes, rfl⟩ := mapM_cons_eq_ok_iff.1 h
    obtain ⟨ops, hops, rfl⟩ := (u.codeEntry_eq_ok_iff fn code).1 hcode
    refine .cons ⟨rfl, ?_⟩ (ih hcodes)
    exact Resolve.body_denotes localIndex_eq_ok_iff.1 u.calleeAt_of_calleeIndex fn.body hops

def exportOf (indexed : Func × Nat) : Option Export :=
  if indexed.1.exported then some { name := indexed.1.name, kind := .function indexed.2 } else none

theorem exportOf_eq_some_iff {indexed : Func × Nat} :
    exportOf indexed = some entry ↔ indexed.1.exported = true ∧
      { name := indexed.1.name, kind := .function indexed.2 } = entry := by
  rw [exportOf]
  split <;> simp_all

/-- The export of the memory of a unit, when the module defines it. -/
def memoryExports (u : CompiledUnit) : List Export :=
  if u.config.importMemory then [] else [{ name := "memory", kind := .memory }]

theorem mem_memoryExports_iff : entry ∈ u.memoryExports ↔
      u.config.importMemory = false ∧ entry = { name := "memory", kind := .memory } := by
  rw [memoryExports]
  split <;> simp_all

theorem exports_eq : u.exports =
    (u.allFunctions.zipIdx u.intrinsics.length).filterMap exportOf ++ u.memoryExports := rfl

theorem mem_exports_function_iff : { name, kind := .function index } ∈ u.exports ↔
      ∃ place fn, u.allFunctions[place]? = some fn ∧ fn.exported = true ∧ fn.name = name ∧
        index = u.intrinsics.length + place := by
  simp only [exports_eq, mem_append, mem_memoryExports_iff, mem_filterMap, Prod.exists,
    exportOf_eq_some_iff, mem_zipIdx_iff_le_and_getElem?_sub]
  constructor
  · rintro (⟨fn, found, ⟨hle, hget⟩, hexported, hentry⟩ | ⟨-, hentry⟩)
    · cases hentry
      exact ⟨index - u.intrinsics.length, fn, hget, hexported, rfl, by omega⟩
    · cases hentry
  · rintro ⟨place, fn, hget, hexported, rfl, rfl⟩
    exact .inl ⟨fn, _, ⟨Nat.le_add_right _ _, by simpa using hget⟩, hexported, rfl⟩

theorem mem_exports_memory_iff :
    { name, kind := .memory } ∈ u.exports ↔ u.config.importMemory = false ∧ name = "memory" := by
  simp only [exports_eq, mem_append, mem_memoryExports_iff, mem_filterMap,
    exportOf_eq_some_iff, Export.mk.injEq, reduceCtorEq, and_false, exists_false, false_or,
      and_true]

theorem exports_pairwise_ne : u.exports.Nodup := by
  -- Two exported functions have different indices.
  have hindices : (u.allFunctions.zipIdx u.intrinsics.length).Pairwise
      fun first second => first.2 ≠ second.2 := by
    rw [← pairwise_map (f := Prod.snd), zipIdx_map_snd]
    exact nodup_range'
  rw [exports_eq]
  refine nodup_append.2 ⟨?_, ?_, ?_⟩
  · refine pairwise_filterMap.2 (hindices.imp fun hne entry hentry other hother => ?_)
    rintro rfl
    obtain ⟨-, rfl⟩ := exportOf_eq_some_iff.1 hentry
    obtain ⟨-, heq⟩ := exportOf_eq_some_iff.1 hother
    injection heq with _ hkind
    injection hkind with hindex
    exact hne hindex.symm
  · rw [memoryExports]
    split <;> simp
  · rintro entry hmem _ hmemory rfl
    obtain ⟨_, -, hentry⟩ := mem_filterMap.1 hmem
    obtain ⟨-, rfl⟩ := exportOf_eq_some_iff.1 hentry
    exact ExportKind.noConfusion (Export.mk.inj (u.mem_memoryExports_iff.1 hmemory).2).2

/-- The bytes of the heap head are the start of the heap in base 256, lowest digit first. -/
theorem headBytes_eq : u.headBytes =
    (List.range 4).map fun place => UInt8.ofNat (u.config.heapStart.toNat / 256 ^ place) := by
  have hhead : (Word.ofUInt32 u.config.heapStart).toAddress = u.config.heapStart.toNat := rfl
  simp only [headBytes, byte_eq_ofNat _ (show (0 : UInt32).toNat < 4 by decide),
    byte_eq_ofNat _ (show (1 : UInt32).toNat < 4 by decide),
    byte_eq_ofNat _ (show (2 : UInt32).toNat < 4 by decide),
    byte_eq_ofNat _ (show (3 : UInt32).toNat < 4 by decide), hhead]
  rfl

theorem represents_moduleWith (hnames : (u.allFunctions.map (·.name)).Nodup)
    (hcodes : u.allFunctions.mapM u.codeEntry = .ok codes) : (u.moduleWith codes).Represents u where
  types _ := mem_eraseDups
  types_distinct := nodup_eraseDups _
  types_ordered := pairwise_eraseDups _
  imports := by
    simp only [moduleWith, imports, take_append_of_le_length, length_map, Nat.le_refl,
      take_of_length_le, forall₂_map_right_iff, forall₂_same]
    intro intrinsic hmem
    refine ⟨rfl, rfl, _, rfl, u.types_getElem?_idxOf ?_⟩
    exact mem_append_left _ (mem_map_of_mem hmem)
  memoryImport := by
    simp only [moduleWith, imports, drop_append, length_map, Nat.sub_self, drop_zero]
    simp [limits]
  functions := by
    simp only [moduleWith, forall₂_map_right_iff, forall₂_same]
    intro fn hmem
    exact u.types_getElem?_idxOf (mem_append_right _ (mem_map_of_mem hmem))
  codes := u.codes_implement hcodes
  names := hnames
  functionExports _ _ := u.mem_exports_function_iff
  memoryExport _ := u.mem_exports_memory_iff
  exports_distinct := u.exports_pairwise_ne
  memory := rfl
  data := by rw [← headBytes_eq]; rfl

theorem fits_moduleWith (hcodes : u.allFunctions.mapM u.codeEntry = .ok codes)
    (hbytes : (u.moduleWith codes).bytes.length < 2 ^ 32)
    (hlocals : ∀ fn ∈ u.allFunctions, fn.params.length + fn.locals.length < 2 ^ 32) :
    (u.moduleWith codes).Fits := by
  have himplement := u.codes_implement hcodes
  have hlength := himplement.length_eq
  -- Every type, import and body takes bytes, so their indices are small.
  have hitems := (u.moduleWith codes).items_le_bytes
  simp only [Module.sections, moduleWith, map_cons, map_nil, length_map, sum_cons,
    sum_nil, imports, length_append] at hitems
  have htype : ∀ type ∈ u.indexedTypes, u.types.idxOf type < 2 ^ 32 := by
    intro type hmem
    have hlt := (List.getElem?_eq_some_iff.1 (u.types_getElem?_idxOf hmem)).1
    simp only [moduleWith, imports] at hbytes
    omega
  have hfunction : u.intrinsics.length + u.allFunctions.length < 2 ^ 32 := by
    simp only [moduleWith, imports] at hbytes
    omega
  refine ⟨hbytes, ?_, ?_, ?_, ?_, by simp [moduleWith, hlength]⟩
  · intro entry hmem typeIndex hkind
    rcases mem_append.1 hmem with hmem | hmem
    · obtain ⟨intrinsic, hintrinsic, rfl⟩ := mem_map.1 hmem
      cases hkind
      exact htype _ (mem_append_left _ (mem_map_of_mem hintrinsic))
    · split at hmem
      · rw [mem_singleton.1 hmem] at hkind
        cases hkind
      · cases hmem
  · intro typeIndex hmem
    obtain ⟨fn, hfn, rfl⟩ := mem_map.1 hmem
    exact htype _ (mem_append_right _ (mem_map_of_mem hfn))
  · rintro ⟨name, kind⟩ hmem index rfl
    obtain ⟨place, fn, hplace, -, -, rfl⟩ := u.mem_exports_function_iff.1 hmem
    have hlt := (List.getElem?_eq_some_iff.1 hplace).1
    omega
  · intro code hmem
    obtain ⟨place, hplace, rfl⟩ := getElem_of_mem hmem
    obtain ⟨hcount, hbody⟩ := himplement.get (hlength ▸ hplace) hplace
    have hfn := hlocals _ (get_mem _ ⟨place, hlength ▸ hplace⟩)
    refine ⟨Nat.lt_of_le_of_lt (hcount.trans_le (Nat.le_add_left _ _)) hfn, ?_⟩
    · refine Resolve.allFit_of_denotes ?_ (fun hcallee => Nat.lt_trans hcallee.lt hfunction) _ hbody
      intro name index hindex
      have hlt := (findIdx?_eq_some_iff_getElem.1 hindex).1
      rw [length_append] at hlt
      omega

theorem encode_eq_ok {u : CompiledUnit} {bytes : List UInt8} (h : u.encode = .ok bytes) :
    ∃ m, u.toModule = .ok m ∧ m.bytes = bytes := by
  obtain ⟨m, hm, h⟩ := bind_eq_ok_iff.1 h
  refine ⟨m, hm, ?_⟩
  split at h
  · split at h
    · exact pure_eq_ok_iff.1 h
    · cases h
  · exact pure_eq_ok_iff.1 h

/-- **Encoding loses nothing.** When a unit encodes to bytes, and the bytes and the locals of each
function can be counted in 32 bits, the bytes decode to a module that represents the unit. -/
theorem decode_encode (u : CompiledUnit) {bytes : List UInt8} (h : u.encode = .ok bytes)
    (hbytes : bytes.length < 2 ^ 32)
    (hlocals : ∀ fn ∈ u.allFunctions, fn.params.length + fn.locals.length < 2 ^ 32) :
    ∃ m, Module.decode bytes = some m ∧ m.Represents u := by
  obtain ⟨m, hm, rfl⟩ := encode_eq_ok h
  obtain ⟨hnames, codes, hcodes, rfl⟩ := (u.toModule_eq_ok_iff m).1 hm
  refine ⟨_, Module.decode_bytes ?_, u.represents_moduleWith hnames hcodes⟩
  exact u.fits_moduleWith hcodes hbytes hlocals

end CompiledUnit

namespace Binary

/-- A unit that prints a countdown. One of its two intrinsics is called by its helper only. -/
def countdown : CompiledUnit where
  functions := [{ name := "step", params := ["n"], locals := ["next"], exported := true,
                  body := [.localGet "n", .const (-1), .numeric .add, .localTee "next",
                           .call (.intrinsic .printNum), .localGet "next"] }]
  main := { name := "main", locals := [scratchLocal, "n"], exported := true,
            body := [.const 300, .localSet "n",
                     .loop [.localGet "n", .call (.user "step"), .localTee "n",
                            .cond false [.br 1] [.const 0, .localGet "n", .store 4]],
                     .const 0, .load 4] }
  helpers := [Helper.listElementAddress.function 0]
  intrinsics := [.printNum, .indexError]
  config := { validateOutput := false }

theorem countdown_decodes : ∃ bytes m, countdown.encode = .ok bytes ∧ bytes.length = 224 ∧
    Module.decode bytes = some m ∧ m.Represents countdown := by
  have hbytes : ∃ bytes, countdown.encode = .ok bytes ∧ bytes.length = 224 :=
    ⟨_, rfl, by decide +kernel⟩
  obtain ⟨bytes, hencode, hlength⟩ := hbytes
  have hlocals : ∀ fn ∈ countdown.allFunctions, fn.params.length + fn.locals.length < 2 ^ 32 := by
    decide
  obtain ⟨m, hdecode, hm⟩ := countdown.decode_encode hencode (by omega) hlocals
  exact ⟨bytes, m, hencode, hlength, hdecode, hm⟩

end Binary

end TypedWasm
