import Mathlib.Data.List.Nodup
import Mathlib.Tactic.Ring
import TypedWasm.Config.Reading
import TypedWasm.Proofs.Failing
import TypedWasm.Proofs.Frames

/-!
# Globals in memory

The layout gives every global a slot of its own below the heap. Slots are aligned words, so writing
one leaves the others as they were.
-/

namespace TypedWasm

open Failing List Nat UInt32

variable {address : UInt32} {env env' : Environment} {name : String} {config : Config}
  {slot : UInt32}

namespace Sparse

variable {α : Type} (default : α) {index other : Nat}

theorem get_empty (bits index : Nat) : get default bits .empty index = default := by
  cases bits <;> rfl

theorem get_set_self (bits : Nat) (array : Sparse α) (index : Nat) (value : α) :
    get default bits (set bits array index value) index = value := by
  induction bits generalizing array with
  | zero => cases array <;> rfl
  | succ bits ih => cases array <;> by_cases h : index.testBit bits <;> simp [set, get, h, ih]

theorem get_set_of_bit (bits : Nat) (array : Sparse α) {bit : Nat} (hbit : bit < bits)
    (hne : index.testBit bit ≠ other.testBit bit) (value : α) :
    get default bits (set bits array index value) other = get default bits array other := by
  induction bits generalizing array with
  | zero => exact absurd hbit (Nat.not_lt_zero bit)
  | succ bits ih =>
    by_cases htop : index.testBit bits = other.testBit bits
    · have hlower : bit < bits := by
        refine Nat.lt_of_le_of_ne (le_of_lt_succ hbit) ?_
        rintro rfl
        exact hne htop
      have hrest := fun part => ih part hlower
      cases array <;> cases h : other.testBit bits <;>
        simp [set, get, h, htop.trans h, hrest, get_empty]
    · -- The two indices part at the top: the written half is not the one that is read.
      cases array <;> cases h : other.testBit bits <;> cases h' : index.testBit bits <;>
        simp_all [set, get, get_empty]

theorem get_set_of_ne {bits : Nat} (array : Sparse α) (hindex : index < 2 ^ bits)
    (hother : other < 2 ^ bits) (hne : index ≠ other) (value : α) :
    get default bits (set bits array index value) other = get default bits array other := by
  obtain ⟨bit, hdiffers⟩ := exists_testBit_ne_of_ne hne
  have hbit : bit < bits := by
    by_contra hge
    have hpow : 2 ^ bits ≤ 2 ^ bit := Nat.pow_le_pow_right (by decide) (Nat.le_of_not_lt hge)
    rw [testBit_lt_two_pow (Nat.lt_of_lt_of_le hindex hpow),
      testBit_lt_two_pow (Nat.lt_of_lt_of_le hother hpow)] at hdiffers
    exact hdiffers rfl
  exact get_set_of_bit default bits array hbit hdiffers value

end Sparse

namespace Memory

variable (memory : Memory) {slot other : Nat} (value : Word)

theorem word_slot (slot : Nat) : memory.word (4 * slot) = memory.cell slot := by
  rw [word, if_pos (mul_mod_right 4 slot), Nat.mul_div_cancel_left slot (by decide)]

theorem setWord_slot (slot : Nat) :
    memory.setWord (4 * slot) value = memory.setCell slot value := by
  rw [setWord, if_pos (mul_mod_right 4 slot), Nat.mul_div_cancel_left slot (by decide)]

theorem word_setWord_self (slot : Nat) :
    (memory.setWord (4 * slot) value).word (4 * slot) = value := by
  rw [setWord_slot, word_slot]
  exact Sparse.get_set_self 0 cellBits memory.cells slot value

theorem word_setWord_of_ne (hslot : slot < 2 ^ cellBits) (hother : other < 2 ^ cellBits)
    (hne : slot ≠ other) :
    (memory.setWord (4 * slot) value).word (4 * other) = memory.word (4 * other) := by
  rw [setWord_slot, word_slot, word_slot]
  exact Sparse.get_set_of_ne 0 memory.cells hslot hother hne value

theorem size_setWord_slot (slot : Nat) : (memory.setWord (4 * slot) value).size = memory.size := by
  rw [setWord_slot]
  rfl

end Memory

theorem Offset.mul_wordSize_eq_ok_iff :
    Offset.mul slot wordSize = .ok address ↔ address.toNat = 4 * slot.toNat := by
  have hword : wordSize.toNat = 4 := rfl
  have hbound := address.toNat_lt
  rw [Offset.mul, hword]
  split
  · next hfits =>
    have hproduct : (slot * wordSize).toNat = 4 * slot.toNat := by
      rw [UInt32.toNat_mul, hword, mod_eq_of_lt hfits, Nat.mul_comm]
    rw [Except.ok.injEq, ← UInt32.toNat_inj, hproduct]
    exact eq_comm
  · next hfits =>
    have hsize : UInt32.size = 2 ^ 32 := rfl
    constructor
    · intro h
      cases h
    · intro h
      omega

namespace Environment

variable {program : Program}

theorem globalAddress_eq_ok_iff : env.globalAddress name = .ok address ↔
      ∃ slot, env.globals.lookup name = some slot ∧ address.toNat = 4 * slot.toNat := by
  rw [globalAddress, globalSlot]
  cases env.globals.lookup name with
  | none => simp [bind, Except.bind]
  | some slot =>
    simp [bind, Except.bind, ← Offset.mul_wordSize_eq_ok_iff]
    cases Offset.mul slot wordSize <;> simp

/-- Globals have names and slots of their own, and slots are handed out in order. -/
structure Planned (env : Environment) : Prop where
  names : (env.globals.map (·.1)).Nodup
  slots : (env.globals.map (·.2)).Nodup
  below : ∀ entry ∈ env.globals, entry.2.toNat < env.nextSlot.toNat

theorem Planned.slot_injective (hplan : env.Planned) {other : String}
    (h : env.globals.lookup name = some slot) (h' : env.globals.lookup other = some slot) :
    name = other := by
  have hentries : (name, slot) = (other, slot) :=
    inj_on_of_nodup_map hplan.slots (mem_of_lookup h) (mem_of_lookup h') rfl
  exact (Prod.mk.inj hentries).1

theorem planned_empty : Planned {} where
  names := nodup_nil
  slots := nodup_nil
  below := fun _ h => absurd h not_mem_nil

theorem addGlobal_cases (h : env.addGlobal name = .ok env') :
    (name ∈ env.globals.map (·.1) ∧ env' = env) ∨
      (name ∉ env.globals.map (·.1) ∧ env'.globals = env.globals ++ [(name, env.nextSlot)] ∧
        env'.nextSlot.toNat = env.nextSlot.toNat + 1) := by
  rw [addGlobal] at h
  cases hlookup : env.globals.lookup name with
  | some slot =>
    rw [hlookup] at h
    cases h
    refine .inl ⟨lookup_isSome_iff_mem.1 ?_, rfl⟩
    rw [hlookup]
    rfl
  | none =>
    rw [hlookup] at h
    obtain ⟨next, hnext, hdone⟩ := bind_eq_ok_iff.1 h
    cases pure_eq_ok_iff.1 hdone
    have hnew : name ∉ env.globals.map (·.1) := by
      rw [← lookup_isSome_iff_mem, hlookup]
      exact Bool.false_ne_true
    refine .inr ⟨hnew, rfl, ?_⟩
    rw [Offset.add] at hnext
    split at hnext
    · next hfits =>
      cases hnext
      rw [UInt32.toNat_add]
      exact mod_eq_of_lt hfits
    · cases hnext

theorem Planned.addGlobal (hplan : env.Planned) (h : env.addGlobal name = .ok env') :
    env'.Planned := by
  rcases addGlobal_cases h with ⟨-, rfl⟩ | ⟨hnew, hglobals, hnext⟩
  · exact hplan
  · have hslot : env.nextSlot ∉ env.globals.map (·.2) := by
      intro hmem
      obtain ⟨entry, hentry, he⟩ := mem_map.1 hmem
      have hlt := hplan.below entry hentry
      rw [he] at hlt
      exact Nat.lt_irrefl _ hlt
    refine ⟨?_, ?_, ?_⟩
    · rw [hglobals, map_append]
      exact hplan.names.append (nodup_singleton name) (by simpa using hnew)
    · rw [hglobals, map_append]
      exact hplan.slots.append (nodup_singleton _) (by simpa using hslot)
    · intro entry hentry
      rw [hglobals, mem_append, mem_singleton] at hentry
      rcases hentry with hold | rfl
      · have hlt := hplan.below entry hold
        omega
      · rw [hnext]
        exact lt_succ_self _

theorem Planned.addGlobals {names : List String} (hplan : env.Planned)
    (h : env.addGlobals names = .ok env') : env'.Planned := by
  induction names generalizing env with
  | nil =>
    cases h
    exact hplan
  | cons name rest ih =>
    obtain ⟨between, hfirst, hrest⟩ := bind_eq_ok_iff.1 h
    exact ih (hplan.addGlobal hfirst) hrest

theorem addClasses_layout {classes : List ClassDef} (h : env.addClasses classes = .ok env') :
    env'.globals = env.globals ∧ env'.nextSlot = env.nextSlot := by
  induction classes generalizing env with
  | nil =>
    cases h
    exact ⟨rfl, rfl⟩
  | cons cls rest ih =>
    obtain ⟨between, hfirst, hrest⟩ := bind_eq_ok_iff.1 h
    have hkeeps : between.globals = env.globals ∧ between.nextSlot = env.nextSlot := by
      rw [addClass] at hfirst
      split at hfirst
      · split at hfirst
        · cases hfirst
          exact ⟨rfl, rfl⟩
        · cases hfirst
      · cases hfirst
        exact ⟨rfl, rfl⟩
    obtain ⟨hglobals, hnext⟩ := ih hrest
    exact ⟨hglobals.trans hkeeps.1, hnext.trans hkeeps.2⟩

theorem exists_addGlobals_of_extend (h : env.extend program = .ok env') :
    ∃ added, env.leave.addGlobals (program.inits.map (·.name)) = .ok added ∧
      env'.globals = added.globals ∧ env'.nextSlot = added.nextSlot := by
  obtain ⟨added, hadded, hclasses⟩ := bind_eq_ok_iff.1 h
  exact ⟨added, mapError_eq_ok_iff.1 hadded, addClasses_layout (mapError_eq_ok_iff.1 hclasses)⟩

theorem planned_of_extend (hplan : env.Planned) (h : env.extend program = .ok env') :
    env'.Planned := by
  obtain ⟨added, hadded, hglobals, hnext⟩ := exists_addGlobals_of_extend h
  have hleave : env.leave.Planned := ⟨hplan.names, hplan.slots, hplan.below⟩
  obtain ⟨hnames, hslots, hbelow⟩ := hleave.addGlobals hadded
  constructor
  · rwa [hglobals]
  · rwa [hglobals]
  · rwa [hglobals, hnext]

theorem nextSlot_le_heap (hheap : 4 < config.heapStart.toNat)
    (hfit : checkGlobalsFit env config = .ok ()) :
      4 * env.nextSlot.toNat ≤ config.heapStart.toNat := by
  rw [checkGlobalsFit, highestSlot] at hfit
  by_cases hnext : env.nextSlot > firstGlobalSlot
  · have hfirst : 1 ≤ env.nextSlot.toNat := by
      rw [gt_iff_lt, lt_iff_toNat_lt] at hnext
      exact one_le_of_lt hnext
    have hlast : (env.nextSlot - 1).toNat = env.nextSlot.toNat - 1 :=
      UInt32.toNat_sub_of_le _ _ (le_iff_toNat_le.2 hfirst)
    have hwords : (config.heapStart / wordSize).toNat = config.heapStart.toNat / 4 :=
      UInt32.toNat_div _ _
    have hone : 1 ≤ config.heapStart.toNat / 4 := by omega
    have hroom : (config.heapStart / wordSize - 1).toNat = config.heapStart.toNat / 4 - 1 := by
      rw [UInt32.toNat_sub_of_le _ _ (le_iff_toNat_le.2 (by rw [hwords]; exact hone)), hwords]
      rfl
    rw [if_pos hnext, Config.maxGlobalSlot, Offset.sub, if_pos (by rw [hwords]; exact hone)] at hfit
    dsimp only at hfit
    split at hfit
    · cases hfit
    · next hle =>
      rw [lt_iff_toNat_lt, hlast, hroom] at hle
      omega
  · have hnone : env.nextSlot.toNat ≤ 1 := by
      rw [gt_iff_lt, lt_iff_toNat_lt] at hnext
      exact Nat.le_of_not_lt hnext
    omega

theorem Planned.slot_below_heap (hplan : env.Planned) (hheap : 4 < config.heapStart.toNat)
    (hfit : checkGlobalsFit env config = .ok ()) {entry : String × UInt32}
    (hentry : entry ∈ env.globals) : 4 * entry.2.toNat + 4 ≤ config.heapStart.toNat := by
  have hbelow := hplan.below entry hentry
  have hnext := nextSlot_le_heap hheap hfit
  omega

end Environment

theorem Config.layout_of_check (h : config.check = .ok ()) : 4 < config.heapStart.toNat ∧
      config.heapStart.toNat ≤ pageSize.toNat * config.minMemoryPages.toNat := by
  rw [Config.check] at h
  split at h
  · cases h
  · next hheap =>
    split at h
    · cases h
    · next hpages =>
      have hstart : 4 < config.heapStart.toNat := by
        rw [not_or, UInt32.not_le, lt_iff_toNat_lt] at hheap
        exact hheap.2
      refine ⟨hstart, ?_⟩
      rw [Nat.not_lt, pagesBelow] at hpages
      have hsize : pageSize.toNat = 65536 := rfl
      generalize config.minMemoryPages.toNat = pages at hpages ⊢
      rw [hsize] at hpages ⊢
      omega

namespace Machine

variable {m : Machine}

section

variable {slot : Nat} (haddress : address.toNat = 4 * slot) (hroom : 4 * slot + 4 ≤ m.memory.size)
include haddress hroom

theorem loadWord_slot : m.loadWord (Word.ofUInt32 address) 0 = .ok (m.memory.word (4 * slot)) := by
  have heffective : effective (Word.ofUInt32 address) 0 = 4 * slot := haddress
  rw [loadWord, heffective, Memory.load?, if_pos hroom]

theorem storeWord_slot (value : Word) : m.storeWord (Word.ofUInt32 address) 0 value =
      .ok { m with memory := m.memory.setWord (4 * slot) value } := by
  have heffective : effective (Word.ofUInt32 address) 0 = 4 * slot := haddress
  rw [storeWord, heffective, Memory.store?, if_pos hroom]

end

/-- A configuration that passes its check has a machine whose memory reaches up to the heap. -/
theorem exists_start (hcheck : config.check = .ok ())
    (hpages : config.minMemoryPages.toNat < 65536) :
    ∃ m, Machine.start? config = .ok m ∧ config.heapStart.toNat ≤ m.memory.size ∧
      m.output = #[] := by
  obtain ⟨hheap, hroom⟩ := Config.layout_of_check hcheck
  have hsize : ¬ UInt32.size ≤ config.minMemoryPages.toNat * pageSize.toNat := by
    have hword : UInt32.size = 65536 * 65536 := rfl
    have hpage : pageSize.toNat = 65536 := rfl
    generalize config.minMemoryPages.toNat = pages at hpages ⊢
    rw [hword, hpage]
    omega
  have hsome : config.minMemoryPages.toNat ≠ 0 := by
    intro hzero
    rw [hzero] at hroom
    omega
  rw [Machine.start?, if_neg hsize, if_neg hsome]
  exact ⟨_, rfl, hroom, rfl⟩

end Machine

end TypedWasm
