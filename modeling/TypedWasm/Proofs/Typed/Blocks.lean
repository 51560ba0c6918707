import TypedWasm.Proofs.Bytes
import TypedWasm.Proofs.Execution
import TypedWasm.Proofs.Typed.Consistent

/-!
# Typed heaps

A map of the heap says at which addresses blocks start and what their words stand for. A machine
agrees with it when the blocks lie apart between the globals and the heap head, every word of a
block and every global is a value of its type, and nothing is written above the head. Maps only
grow.
-/

namespace TypedWasm.Typed

open Memory Word

inductive Kind where
  /-- The fields of an instance, or the elements of a tuple. -/
  | parts (types : List Ty)
  | list (item : Ty) (room : Nat)
  | dict (key value : Ty) (room : Nat)
  | text (room : Nat)

/-- The kinds of the blocks of a heap, by their addresses. -/
abbrev Blocks := Nat → Option Kind

variable {value : Word} {place i address : Nat} {kind : Kind} {ty : Ty} {memory memory' : Memory}
  {blocks blocks' : Blocks} {env : Environment}

namespace Kind

def size : Kind → Nat
  | .parts types => types.length
  | .list _ room => 3 + room
  | .dict _ _ room => 3 + 2 * room
  | .text room => 1 + room

/-- The type of a word of a block. The words of a header have none. -/
def slot? : Kind → Nat → Option Ty
  | .parts types, i => types[i]?
  | .list item room, i => if 3 ≤ i ∧ i < 3 + room then some item else none
  | .dict key value room, i =>
    if 3 ≤ i ∧ i < 3 + 2 * room then some (if i % 2 = 1 then key else value) else none
  | .text room, i => if 1 ≤ i ∧ i < 1 + room then some .number else none

/-- The header of a block keeps to the room the block has. -/
def Headed (memory : Memory) (address : Nat) : Kind → Prop
  | .parts _ => True
  | .list _ room =>
    (memory.word (address + 4)).toAddress ≤ room ∧ (memory.word (address + 8)).toAddress = room
  | .dict _ _ room => (memory.word (address + 4)).toAddress ≤ room
  | .text room => (memory.word address).toAddress ≤ room

def headerSize : Kind → Nat
  | .parts _ => 0
  | .list .. | .dict .. => 3
  | .text _ => 1

theorem slot?_bounds (h : kind.slot? i = some ty) : kind.headerSize ≤ i ∧ i < kind.size := by
  cases kind with
  | parts types => exact ⟨Nat.zero_le i, (List.getElem?_eq_some_iff.1 h).1⟩
  | list | dict | text =>
    simp only [slot?, Option.ite_none_right_eq_some] at h
    exact h.1

theorem Headed.congr (h : kind.Headed memory address) (hsame : ∀ i, i < kind.headerSize →
      memory'.word (address + 4 * i) = memory.word (address + 4 * i)) :
    kind.Headed memory' address := by
  cases kind with
  | parts types => trivial
  | list item room =>
    rw [Headed, hsame 1 (by simp [headerSize]), hsame 2 (by simp [headerSize])]
    exact h
  | dict key value room =>
    rw [Headed, hsame 1 (by simp [headerSize])]
    exact h
  | text room =>
    have h0 := hsame 0 (by simp [headerSize])
    rw [Nat.mul_zero, Nat.add_zero] at h0
    rw [Headed, h0]
    exact h

end Kind

/-- A word is a value of a type: any word is a plain value, zero is none, and an object is the
address of a block of its kind. An object without parts takes no room, so its address means
nothing. -/
def IsValue (env : Environment) (blocks : Blocks) (ty : Ty) (word : Word) : Prop :=
  match ty with
  | .number | .bool => True
  | .none => word = 0
  | .string => word = 0 ∨ ∃ room, blocks word.toAddress = some (.text room)
  | .cls name => word = 0 ∨ ∃ types, env.fieldTypes? name = some types ∧
    (types = [] ∨ blocks word.toAddress = some (.parts types))
  | .list item => word = 0 ∨ ∃ room, blocks word.toAddress = some (.list item room)
  | .tuple items => word = 0 ∨ items = [] ∨ blocks word.toAddress = some (.parts items)
  | .dict key value => word = 0 ∨ ∃ room, blocks word.toAddress = some (.dict key value room)

/-- A map of the heap knows all blocks of another. -/
def Blocks.Grow (blocks blocks' : Blocks) : Prop :=
  ∀ address kind, blocks address = some kind → blocks' address = some kind

theorem Blocks.Grow.refl (blocks : Blocks) : blocks.Grow blocks := fun _ _ h => h

theorem Blocks.Grow.trans {blocks'' : Blocks} (h : blocks.Grow blocks')
    (h' : blocks'.Grow blocks'') : blocks.Grow blocks'' :=
  fun address kind hat => h' address kind (h address kind hat)

section Values

variable {env' : Environment} {target : Ty} {word : Word}

theorem isValue_zero (env : Environment) (blocks : Blocks) (ty : Ty) : IsValue env blocks ty 0 := by
  cases ty <;> simp [IsValue]

theorem isValue_of_isPlain (h : ty.isPlain = true) (word : Word) : IsValue env blocks ty word := by
  cases ty <;> simp_all [IsValue, Ty.isPlain]

theorem IsValue.mono (h : IsValue env blocks ty word)
    (henv : ∀ cls types, env.fieldTypes? cls = some types → env'.fieldTypes? cls = some types)
    (hgrow : blocks.Grow blocks') : IsValue env' blocks' ty word := by
  cases ty with
  | number | bool => trivial
  | none => exact h
  | string | list | dict => exact h.imp_right fun ⟨room, hroom⟩ => ⟨room, hgrow _ _ hroom⟩
  | cls name =>
    exact h.imp_right fun ⟨types, htypes, hat⟩ =>
      ⟨types, henv _ _ htypes, hat.imp_right fun hat => hgrow _ _ hat⟩
  | tuple items => exact h.imp_right fun hat => hat.imp_right fun hat => hgrow _ _ hat

theorem IsValue.grow (h : IsValue env blocks ty word) (hgrow : blocks.Grow blocks') :
    IsValue env blocks' ty word := h.mono (fun _ _ h => h) hgrow

theorem IsValue.takes (h : IsValue env blocks ty word) (htakes : target.Takes ty) :
    IsValue env blocks target word := by
  rcases htakes with hplain | rfl | rfl
  · exact isValue_of_isPlain hplain word
  · exact h
  · obtain rfl : word = 0 := h
    exact isValue_zero _ _ _

end Values

/-- The words of a block are values of their types, and its header keeps to its room. -/
structure Kind.Filled (env : Environment) (blocks : Blocks) (memory : Memory) (address : Nat)
    (kind : Kind) : Prop where
  headed : kind.Headed memory address
  slots : ∀ i ty, kind.slot? i = some ty → IsValue env blocks ty (memory.word (address + 4 * i))

namespace Kind.Filled

variable {env' : Environment}

theorem mono (h : kind.Filled env blocks memory address)
    (henv : ∀ cls types, env.fieldTypes? cls = some types → env'.fieldTypes? cls = some types)
    (hgrow : blocks.Grow blocks') : kind.Filled env' blocks' memory address :=
  ⟨h.headed, fun i ty hslot => (h.slots i ty hslot).mono henv hgrow⟩

theorem congr (h : kind.Filled env blocks memory address)
    (hsame : ∀ i, i < kind.size → memory'.word (address + 4 * i) = memory.word (address + 4 * i))
    (hheader : kind.headerSize ≤ kind.size) : kind.Filled env blocks memory' address := by
  refine ⟨h.headed.congr fun i hi => hsame i (Nat.lt_of_lt_of_le hi hheader), fun i ty hslot => ?_⟩
  rw [hsame i (Kind.slot?_bounds hslot).2]
  exact h.slots i ty hslot

end Kind.Filled

theorem Kind.headerSize_le (kind : Kind) : kind.headerSize ≤ kind.size := by
  cases kind <;> simp [Kind.headerSize, Kind.size]

/-- What a run takes for granted: where the heap starts, where the globals are and what they hold,
and the loaded functions. The globals lie apart, between the heap head and the heap, and a function
with the name of a helper is that helper. -/
structure Setting where
  heapStart : Nat
  env : Environment
  globals : String → Option Ty
  functions : List Func
  slack : UInt32
  heap_pos : 4 < heapStart
  placed : ∀ name address, env.globalAddress name = .ok address →
    4 ≤ address.toNat ∧ address.toNat + 4 ≤ heapStart
  aligned : ∀ name address, env.globalAddress name = .ok address → address.toNat % 4 = 0
  distinct : ∀ name name' address, env.globalAddress name = .ok address →
    env.globalAddress name' = .ok address → name = name'
  helpers : ∀ (helper : Helper) (fn : Func),
    functions.find? (·.name == helper.name) = some fn → fn = helper.function slack

/-- A machine agrees with a map of its heap. -/
structure Describes (setting : Setting) (blocks : Blocks) (m : Machine) : Prop where
  functions : m.functions = setting.functions
  head_ge : setting.heapStart ≤ m.heapHead.toAddress
  /-- Nothing is written above the head. -/
  fresh : ∀ address, m.heapHead.toAddress ≤ address → address < Memory.addressEnd →
    m.memory.byte address = 0
  inside : ∀ address kind, blocks address = some kind →
    0 < kind.size ∧ setting.heapStart ≤ address ∧ address + 4 * kind.size ≤ m.heapHead.toAddress
  apart : ∀ address kind address' kind', blocks address = some kind →
    blocks address' = some kind' → address < address' → address + 4 * kind.size ≤ address'
  filled : ∀ address kind, blocks address = some kind →
    kind.Filled setting.env blocks m.memory address
  globals : ∀ name address ty, setting.env.globalAddress name = .ok address →
    setting.globals name = some ty →
    IsValue setting.env blocks ty (m.memory.word address.toNat)
  /-- No slot without a global is written. -/
  spare : ∀ address, address % 4 = 0 → 4 ≤ address → address + 4 ≤ setting.heapStart →
    (∀ name found, setting.env.globalAddress name = .ok found → found.toNat ≠ address) →
    m.memory.word address = 0

theorem words_of_cells (h : memory'.cells = memory.cells) :
    memory'.word = memory.word ∧ memory'.byte = memory.byte := by
  obtain ⟨pages, cells⟩ := memory
  obtain ⟨pages', cells'⟩ := memory'
  obtain rfl : cells' = cells := h
  exact ⟨rfl, rfl⟩

theorem heapHead_setWord (m : Machine) (hlow : 4 ≤ place) (hhigh : place < 2 ^ 33) (value : Word) :
    Machine.heapHead { m with memory := m.memory.setWord place value } = m.heapHead :=
  word_setWord_of_disjoint (by rw [Memory.addressEnd]; omega)
    (by simp [heapHeadAddress, Memory.addressEnd])
      (.inr (by simpa [heapHeadAddress] using hlow)) value

def Blocks.Below (blocks : Blocks) (address : Nat) : Prop :=
  ∀ start kind, blocks start = some kind → start + 4 * kind.size ≤ address

/-- A map with one more block. -/
def Blocks.add (blocks : Blocks) (address : Nat) (kind : Kind) : Blocks :=
  fun place => if place = address then some kind else blocks place

namespace Describes

variable {setting : Setting} {m : Machine}

theorem same (h : Describes setting blocks m) {m' : Machine}
    (hfunctions : m'.functions = m.functions)
    (hcells : m'.memory.cells = m.memory.cells) : Describes setting blocks m' := by
  obtain ⟨⟨pages, cells⟩, output, functions, pageLimit, fuel⟩ := m
  obtain ⟨⟨pages', cells'⟩, output', functions', pageLimit', fuel'⟩ := m'
  obtain rfl : functions' = functions := hfunctions
  obtain rfl : cells' = cells := hcells
  refine ⟨h.functions, h.head_ge, h.fresh, h.inside, h.apart, fun address kind hat => ?_, h.globals,
    h.spare⟩
  exact (h.filled address kind hat).congr (fun _ _ => rfl) kind.headerSize_le

theorem head_lt (m : Machine) : m.heapHead.toAddress < 2 ^ 32 := toAddress_lt _

theorem head_pos (h : Describes setting blocks m) : 4 < m.heapHead.toAddress :=
  Nat.lt_of_lt_of_le setting.heap_pos h.head_ge

theorem word_other {other : Nat} (hplace : place + 4 ≤ m.heapHead.toAddress)
    (hother : other + 4 ≤ m.heapHead.toAddress) (hdisjoint : other + 4 ≤ place ∨ place + 4 ≤ other)
    (value : Word) : (m.memory.setWord place value).word other = m.memory.word other := by
  have hlt := head_lt m
  exact word_setWord_of_disjoint (by rw [Memory.addressEnd]; omega)
    (by rw [Memory.addressEnd]; omega) hdisjoint.symm value

/-- A write below the head that does not lower the head. What it hits has to be checked. -/
theorem setWord (h : Describes setting blocks m) (hplace : place + 4 ≤ m.heapHead.toAddress)
    (hhead : m.heapHead.toAddress ≤ ((m.memory.setWord place value).word 0).toAddress)
    (hhit : ∀ address kind, blocks address = some kind → place < address + 4 * kind.size →
      address < place + 4 → kind.Filled setting.env blocks (m.memory.setWord place value) address)
    (hglobals : ∀ name address ty, setting.env.globalAddress name = .ok address →
      setting.globals name = some ty →
      IsValue setting.env blocks ty ((m.memory.setWord place value).word address.toNat))
    (hspare : ∀ address, address % 4 = 0 → 4 ≤ address → address + 4 ≤ setting.heapStart →
      (∀ name found, setting.env.globalAddress name = .ok found → found.toNat ≠ address) →
      (m.memory.setWord place value).word address = 0) :
    Describes setting blocks { m with memory := m.memory.setWord place value } := by
  have hlt := head_lt m
  refine ⟨h.functions, Nat.le_trans h.head_ge hhead, ?_, ?_, h.apart, ?_, hglobals, hspare⟩
  · intro address hge hbound
    have hge' : m.heapHead.toAddress ≤ address := Nat.le_trans hhead hge
    rw [byte_setWord (by rw [Memory.addressEnd]; omega) hbound, if_neg (by omega)]
    exact h.fresh address hge' hbound
  · intro address kind hat
    obtain ⟨hsize, hlow, hhigh⟩ := h.inside address kind hat
    exact ⟨hsize, hlow, Nat.le_trans hhigh hhead⟩
  · intro address kind hat
    by_cases hmeets : place < address + 4 * kind.size ∧ address < place + 4
    · exact hhit address kind hat hmeets.1 hmeets.2
    · obtain ⟨-, -, hbelow⟩ := h.inside address kind hat
      refine (h.filled address kind hat).congr (fun i hi => ?_) kind.headerSize_le
      exact word_other hplace (by omega) (by omega) value

theorem write (h : Describes setting blocks m) (hlow : setting.heapStart ≤ place)
    (hhigh : place + 4 ≤ m.heapHead.toAddress)
    (hhit : ∀ address kind, blocks address = some kind → place < address + 4 * kind.size →
      address < place + 4 → kind.Filled setting.env blocks (m.memory.setWord place value) address) :
    Describes setting blocks { m with memory := m.memory.setWord place value } := by
  have hpos := setting.heap_pos
  refine h.setWord hhigh ?_ hhit ?_ ?_
  · rw [word_other hhigh (by omega) (.inl (by omega))]
    exact Nat.le_refl _
  · intro name address ty haddress hty
    obtain ⟨-, hbelow⟩ := setting.placed name address haddress
    rw [word_other hhigh (by omega) (.inl (by omega))]
    exact h.globals name address ty haddress hty
  · intro address haligned hge hbelow hfree
    rw [word_other hhigh (by omega) (.inl (by omega))]
    exact h.spare address haligned hge hbelow hfree

theorem writeSpare (h : Describes setting blocks m) (hlow : setting.heapStart ≤ place)
    (hbelow : blocks.Below place) (hhigh : place + 4 ≤ m.heapHead.toAddress) :
    Describes setting blocks { m with memory := m.memory.setWord place value } := by
  refine h.write hlow hhigh fun address kind hat hmeets => ?_
  have := hbelow address kind hat
  omega

theorem filled_setWord (h : kind.Filled env blocks memory address)
    (hbound : address + 4 * kind.size ≤ Memory.addressEnd) (hslot : kind.slot? i = some ty)
    (hvalue : IsValue env blocks ty value) :
    kind.Filled env blocks (memory.setWord (address + 4 * i) value) address := by
  obtain ⟨hheader, hi⟩ := Kind.slot?_bounds hslot
  have hother : ∀ j, j < kind.size → j ≠ i →
      (memory.setWord (address + 4 * i) value).word (address + 4 * j) =
        memory.word (address + 4 * j) := by
    intro j hj hne
    exact word_setWord_of_disjoint (by omega) (by omega) (by omega) value
  constructor
  · exact h.headed.congr fun j hj => hother j (Nat.lt_of_lt_of_le hj kind.headerSize_le) (by omega)
  · intro j ty' hslot'
    by_cases hj : j = i
    · subst hj
      cases hslot.symm.trans hslot'
      rw [word_setWord (by omega)]
      exact hvalue
    · rw [hother j (Kind.slot?_bounds hslot').2 hj]
      exact h.slots j ty' hslot'

section Changes

variable (h : Describes setting blocks m)
include h

theorem store (hat : blocks address = some kind) (hslot : kind.slot? i = some ty)
    (hvalue : IsValue setting.env blocks ty value) :
    Describes setting blocks { m with memory := m.memory.setWord (address + 4 * i) value } := by
  obtain ⟨-, hlow, hhigh⟩ := h.inside address kind hat
  obtain ⟨-, hi⟩ := Kind.slot?_bounds hslot
  have hlt := head_lt m
  refine h.write (by omega) (by omega) fun other kind' hat' hafter hbefore => ?_
  have hsame : other = address := by
    rcases Nat.lt_trichotomy other address with hlt | heq | hgt
    · have := h.apart other kind' address kind hat' hat hlt
      omega
    · exact heq
    · have := h.apart address kind other kind' hat hat' hgt
      omega
  subst hsame
  cases hat.symm.trans hat'
  exact filled_setWord (h.filled other kind hat) (by rw [Memory.addressEnd]; omega) hslot hvalue

theorem load (hat : blocks address = some kind) (hslot : kind.slot? i = some ty) :
    IsValue setting.env blocks ty (m.memory.word (address + 4 * i)) :=
  (h.filled address kind hat).slots i ty hslot

theorem storeGlobal {name : String} {address : UInt32}
    (haddress : setting.env.globalAddress name = .ok address) (hty : setting.globals name = some ty)
    (hvalue : IsValue setting.env blocks ty value) :
    Describes setting blocks { m with memory := m.memory.setWord address.toNat value } := by
  obtain ⟨hlow, hhigh⟩ := setting.placed name address haddress
  have haligned := setting.aligned name address haddress
  have hge := h.head_ge
  have hlt := head_lt m
  have hplace : address.toNat + 4 ≤ m.heapHead.toAddress := by omega
  refine h.setWord hplace ?_ ?_ ?_ ?_
  · rw [word_other hplace (by omega) (.inl (by omega))]
    exact Nat.le_refl _
  · intro start kind hat hmeets
    obtain ⟨-, hstart, -⟩ := h.inside start kind hat
    omega
  · intro name' address' ty' haddress' hty'
    by_cases hname : name' = name
    · subst hname
      cases haddress.symm.trans haddress'
      cases hty.symm.trans hty'
      rw [word_setWord (by rw [Memory.addressEnd]; omega)]
      exact hvalue
    · have haligned' := setting.aligned name' address' haddress'
      obtain ⟨-, hhigh'⟩ := setting.placed name' address' haddress'
      have hne : address'.toNat ≠ address.toNat := by
        intro heq
        rw [UInt32.toNat_inj] at heq
        subst heq
        exact hname (setting.distinct _ _ _ haddress' haddress)
      rw [word_other hplace (by omega) (by omega)]
      exact h.globals name' address' ty' haddress' hty'
  · intro place hmod hlow' hbelow hfree
    have hne : address.toNat ≠ place := hfree name address haddress
    rw [word_other hplace (by omega) (by omega)]
    exact h.spare place hmod hlow' hbelow hfree

theorem moveHead {head : Word} (hle : m.heapHead.toAddress ≤ head.toAddress) :
    Describes setting blocks { m with memory := m.memory.setWord 0 head } := by
  have hpos := h.head_pos
  have hge := h.head_ge
  have hplace : 0 + 4 ≤ m.heapHead.toAddress := by omega
  refine h.setWord hplace ?_ ?_ ?_ ?_
  · rw [word_setWord (by rw [Memory.addressEnd]; omega)]
    exact hle
  · intro start kind hat hmeets hbefore
    obtain ⟨-, hstart, -⟩ := h.inside start kind hat
    have := setting.heap_pos
    omega
  · intro name address ty haddress hty
    obtain ⟨hlow, hhigh⟩ := setting.placed name address haddress
    rw [word_other hplace (by omega) (.inr (by omega))]
    exact h.globals name address ty haddress hty
  · intro place hmod hlow hbelow hfree
    rw [word_other hplace (by omega) (.inr (by omega))]
    exact h.spare place hmod hlow hbelow hfree

theorem below_head : blocks.Below m.heapHead.toAddress :=
  fun address kind hat => (h.inside address kind hat).2.2

theorem grow_add (hbelow : blocks.Below address) (kind : Kind) :
    blocks.Grow (blocks.add address kind) := by
  intro place kind' hat
  have hne : place ≠ address := by
    rintro rfl
    have hpos := (h.inside place kind' hat).1
    have := hbelow place kind' hat
    omega
  rw [Blocks.add, if_neg hne]
  exact hat

theorem add (hlow : setting.heapStart ≤ address) (hbelow : blocks.Below address)
    (hsize : 0 < kind.size) (hhigh : address + 4 * kind.size ≤ m.heapHead.toAddress)
    (hfilled : kind.Filled setting.env (blocks.add address kind) m.memory address) :
    Describes setting (blocks.add address kind) m := by
  have hgrow := h.grow_add hbelow kind
  have hcases : ∀ {place : Nat} {kind' : Kind}, blocks.add address kind place = some kind' →
      (place = address ∧ kind' = kind) ∨ blocks place = some kind' := by
    intro place kind' hat
    by_cases hplace : place = address
    · rw [Blocks.add, if_pos hplace] at hat
      exact .inl ⟨hplace, (Option.some.inj hat).symm⟩
    · rw [Blocks.add, if_neg hplace] at hat
      exact .inr hat
  refine ⟨h.functions, h.head_ge, h.fresh, ?_, ?_, ?_, ?_, h.spare⟩
  · intro place kind' hat
    rcases hcases hat with ⟨rfl, rfl⟩ | hold
    · exact ⟨hsize, hlow, hhigh⟩
    · exact h.inside place kind' hold
  · intro place kind' place' kind'' hat hat' hlt
    rcases hcases hat with ⟨rfl, rfl⟩ | hold
    · rcases hcases hat' with ⟨rfl, rfl⟩ | hold'
      · exact absurd hlt (Nat.lt_irrefl _)
      · have := hbelow place' kind'' hold'
        omega
    · rcases hcases hat' with ⟨rfl, rfl⟩ | hold'
      · exact hbelow place kind' hold
      · exact h.apart place kind' place' kind'' hold hold' hlt
  · intro place kind' hat
    rcases hcases hat with ⟨rfl, rfl⟩ | hold
    · exact hfilled
    · exact (h.filled place kind' hold).mono (fun _ _ h => h) hgrow
  · intro name place ty hplace hty
    exact (h.globals name place ty hplace hty).grow hgrow

end Changes

end Describes

end TypedWasm.Typed
