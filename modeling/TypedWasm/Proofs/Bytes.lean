import Mathlib.Algebra.Order.Ring.Nat
import TypedWasm.Proofs.Globals

/-!
# Bytes of words and memories

The four bytes of a word are its unsigned reading in base 256, lowest digit first. A memory is its
bytes: a word at any address is made of four of them, and writing a word writes those four and no
others.
-/

namespace TypedWasm

open Int Word

namespace Word

variable (w : Word) {place : UInt32} {v : Word}

theorem byte_eq_ofNat (h : place.toNat < 4) :
    w.byte place = UInt8.ofNat (w.toAddress / 256 ^ place.toNat) := by
  have hshift : (8 * place).toNat % 32 = 8 * place.toNat := by
    rw [UInt32.toNat_mul]
    simp
    omega
  apply UInt8.toNat_inj.1
  rw [byte, toAddress, UInt32.toNat_toUInt8, UInt32.toNat_shiftRight, hshift,
    Nat.shiftRight_eq_div_pow, Nat.pow_mul, UInt8.toNat_ofNat']

theorem toNat_byte (h : place.toNat < 4) :
    (w.byte place).toNat = w.toAddress / 256 ^ place.toNat % 256 := by
  rw [byte_eq_ofNat w h, UInt8.toNat_ofNat']

theorem toAddress_lt : w.toAddress < 2 ^ 32 := w.toUInt32.toNat_lt

theorem toAddress_inj {w : Word} (h : w.toAddress = v.toAddress) : w = v := by
  have hbits : w.toUInt32 = v.toUInt32 := UInt32.toNat_inj.1 h
  rw [← Int32.toInt32_toUInt32 w, hbits, Int32.toInt32_toUInt32]

theorem toAddress_ofNat {n : Nat} (h : n < 2 ^ 32) : (ofNat n).toAddress = n := by
  show (UInt32.ofNat n).toNat = n
  rw [UInt32.toNat_ofNat']
  exact Nat.mod_eq_of_lt h

theorem toAddress_add (a b : Word) : (a + b).toAddress = (a.toAddress + b.toAddress) % 2 ^ 32 := by
  rw [toAddress, Int32.toUInt32_add, UInt32.toNat_add, toAddress, toAddress]

theorem toAddress_mul (a b : Word) : (a * b).toAddress = a.toAddress * b.toAddress % 2 ^ 32 := by
  rw [toAddress, Int32.toUInt32_mul, UInt32.toNat_mul, toAddress, toAddress]

theorem ofUInt32_eq_ofNat (n : UInt32) : ofUInt32 n = ofNat n.toNat := by
  rw [ofUInt32, ofNat, UInt32.ofNat_toNat]

theorem ofNat_add_ofNat (a b : Nat) : ofNat a + ofNat b = ofNat (a + b) := by
  rw [ofNat, ofNat, ofNat, UInt32.ofNat_add, UInt32.toInt32_add]

theorem ofNat_sub_ofNat {a b : Nat} (h : b ≤ a) : ofNat a - ofNat b = ofNat (a - b) := by
  rw [ofNat, ofNat, ofNat, UInt32.ofNat_sub h, UInt32.toInt32_sub]

theorem ofNat_mul_ofNat (a b : Nat) : ofNat a * ofNat b = ofNat (a * b) := by
  rw [ofNat, ofNat, ofNat, UInt32.ofNat_mul, UInt32.toInt32_mul]

theorem toInt_ofNat_le (n : Nat) : (ofNat n).toInt ≤ n := by
  have hmod : (ofNat n).toInt = (n : Int).bmod (2 ^ 32) := by
    rw [ofNat, UInt32.toInt32_ofNat', Int32.toInt_ofNat']
    rfl
  rw [hmod, bmod_def]
  split <;> omega

theorem ofInt_natCast (n : Nat) : ofInt n = ofNat n := by
  rw [ofInt, Int32.ofInt_eq_ofNat, ofNat, UInt32.toInt32_ofNat']

theorem ofInt_toInt_add (n : Nat) : ofInt (w.toInt + n) = w + ofNat n := by
  rw [ofInt, Int32.ofInt_add, Int32.ofInt_toInt, ← ofInt_natCast, ofInt]

theorem toAddress_ofUInt32 (n : UInt32) : (ofUInt32 n).toAddress = n.toNat := by
  rw [toAddress, ofUInt32, UInt32.toUInt32_toInt32]

theorem eq_ofNat : w = ofNat w.toAddress :=
  toAddress_inj (by rw [toAddress_ofNat (toAddress_lt w)])

theorem toInt_eq_bmod : w.toInt = (w.toAddress : Int).bmod (2 ^ 32) := by
  have hmod : (ofNat w.toAddress).toInt = (w.toAddress : Int).bmod (2 ^ 32) := by
    rw [ofNat, UInt32.toInt32_ofNat', Int32.toInt_ofNat']
    rfl
  rw [← hmod, ← eq_ofNat]

theorem toInt_of_toAddress_lt {w : Word} (h : w.toAddress < 2 ^ 31) : w.toInt = w.toAddress := by
  rw [toInt_eq_bmod, bmod_def]
  split <;> omega

theorem toAddress_sub {w : Word} (h : v.toAddress ≤ w.toAddress) :
    (w - v).toAddress = w.toAddress - v.toAddress := by
  have hlt := toAddress_lt w
  rw [w.eq_ofNat, v.eq_ofNat, ofNat_sub_ofNat h, ← w.eq_ofNat, ← v.eq_ofNat,
    toAddress_ofNat (by omega)]

theorem ofBool_eq_zero {b : Bool} : ofBool b = 0 ↔ b = false := by
  cases b <;> simp [ofBool]

theorem ofBool_or_eq_zero {a b : Bool} (h : ofBool a ||| ofBool b = 0) : a = false ∧ b = false := by
  cases a <;> cases b <;> revert h <;> decide

theorem lt_iff_toAddress_lt {w : Word} (hw : w.toAddress < 2 ^ 31) (hv : v.toAddress < 2 ^ 31) :
    w < v ↔ w.toAddress < v.toAddress := by
  rw [Int32.lt_iff_toInt_lt, toInt_of_toAddress_lt hw, toInt_of_toAddress_lt hv]
  omega

theorem toAddress_lt_of_inside {index length : Word} (hlow : 0 ≤ index) (hhigh : index < length)
    (hlength : length.toAddress < 2 ^ 31) : index.toAddress < length.toAddress := by
  have hlt := toAddress_lt index
  have hzero : (0 : Word).toInt = 0 := rfl
  rw [Int32.le_iff_toInt_le, hzero] at hlow
  rw [Int32.lt_iff_toInt_lt, toInt_of_toAddress_lt hlength] at hhigh
  rw [toInt_eq_bmod, bmod_def] at hlow hhigh
  split at hhigh <;> omega

theorem toInt_ofNat_of_lt {n : Nat} (h : n < 2 ^ 31) : (ofNat n).toInt = n := by
  rw [toInt_of_toAddress_lt] <;> rw [toAddress_ofNat (by omega)]
  exact h

theorem ofNat_lt_ofNat {a b : Nat} (ha : a < 2 ^ 31) (hb : b < 2 ^ 31) :
    ofNat a < ofNat b ↔ a < b := by
  rw [Int32.lt_iff_toInt_lt, toInt_ofNat_of_lt ha, toInt_ofNat_of_lt hb, Int.ofNat_lt]

theorem toAddress_ofBytes (b0 b1 b2 b3 : UInt8) : (ofBytes b0 b1 b2 b3).toAddress =
    b0.toNat + 256 * b1.toNat + 65536 * b2.toNat + 16777216 * b3.toNat := by
  have h0 := b0.toNat_lt
  have h1 := b1.toNat_lt
  have h2 := b2.toNat_lt
  have h3 := b3.toNat_lt
  have hor : ∀ low high shift : Nat, low < 2 ^ shift →
      low ||| high <<< shift = low + 2 ^ shift * high := by
    intro low high shift hlow
    rw [Nat.or_comm, ← Nat.shiftLeft_add_eq_or_of_lt hlow, Nat.shiftLeft_eq]
    ring
  have hshift : ∀ (high : UInt8) (shift : UInt32), shift.toNat ≤ 24 →
      (high.toUInt32 <<< shift).toNat = high.toNat <<< shift.toNat := by
    intro high shift hle
    have hhigh := high.toNat_lt
    have hpow : 2 ^ shift.toNat ≤ 2 ^ 24 := Nat.pow_le_pow_right (by decide) hle
    rw [UInt32.toNat_shiftLeft, UInt8.toNat_toUInt32,
      Nat.mod_eq_of_lt (a := shift.toNat) (by omega), Nat.mod_eq_of_lt]
    rw [Nat.shiftLeft_eq]
    calc high.toNat * 2 ^ shift.toNat ≤ 255 * 2 ^ 24 := Nat.mul_le_mul (by omega) hpow
      _ < 2 ^ 32 := by decide
  have hvalue : (ofBytes b0 b1 b2 b3).toAddress =
      (b0.toUInt32 ||| (b1.toUInt32 <<< 8) ||| (b2.toUInt32 <<< 16) |||
        (b3.toUInt32 <<< 24)).toNat := rfl
  rw [hvalue]
  simp only [UInt32.toNat_or, UInt8.toNat_toUInt32]
  rw [hshift b1 8 (by decide), hshift b2 16 (by decide), hshift b3 24 (by decide)]
  have e8 : (8 : UInt32).toNat = 8 := rfl
  have e16 : (16 : UInt32).toNat = 16 := rfl
  have e24 : (24 : UInt32).toNat = 24 := rfl
  rw [e8, e16, e24, hor _ _ 8 (by omega), hor _ _ 16 (by omega), hor _ _ 24 (by omega)]
  omega

theorem ofBytes_byte : ofBytes (w.byte 0) (w.byte 1) (w.byte 2) (w.byte 3) = w := by
  have hw := w.toAddress_lt
  apply toAddress_inj
  rw [toAddress_ofBytes, toNat_byte w (by decide), toNat_byte w (by decide),
    toNat_byte w (by decide), toNat_byte w (by decide)]
  simp only [UInt32.reduceToNat, Nat.reducePow]
  omega

theorem byte_ofBytes (b0 b1 b2 b3 : UInt8) :
    (ofBytes b0 b1 b2 b3).byte 0 = b0 ∧ (ofBytes b0 b1 b2 b3).byte 1 = b1 ∧
      (ofBytes b0 b1 b2 b3).byte 2 = b2 ∧ (ofBytes b0 b1 b2 b3).byte 3 = b3 := by
  have h0 := b0.toNat_lt
  have h1 := b1.toNat_lt
  have h2 := b2.toNat_lt
  have h3 := b3.toNat_lt
  refine ⟨?_, ?_, ?_, ?_⟩ <;>
  · apply UInt8.toNat_inj.1
    rw [toNat_byte _ (by decide), toAddress_ofBytes]
    simp only [UInt32.reduceToNat, Nat.reducePow]
    omega

end Word

namespace Memory

variable {memory memory' : Memory} {address other : Nat}

/-- One more than the highest address a memory tells apart. -/
def addressEnd : Nat := 2 ^ 34

theorem cell_setCell_self (index : Nat) (value : Word) :
    (memory.setCell index value).cell index = value :=
  Sparse.get_set_self 0 cellBits memory.cells index value

theorem cell_setCell_of_ne {index place : Nat} (hindex : index < 2 ^ cellBits)
    (hplace : place < 2 ^ cellBits) (hne : index ≠ place) (value : Word) :
    (memory.setCell index value).cell place = memory.cell place :=
  Sparse.get_set_of_ne 0 memory.cells hindex hplace hne value

theorem place_cases (address : Nat) : (address % 4 = 0 ∧ UInt32.ofNat (address % 4) = 0) ∨
    (address % 4 = 1 ∧ UInt32.ofNat (address % 4) = 1) ∨
    (address % 4 = 2 ∧ UInt32.ofNat (address % 4) = 2) ∨
    (address % 4 = 3 ∧ UInt32.ofNat (address % 4) = 3) := by
  have hcases : address % 4 = 0 ∨ address % 4 = 1 ∨ address % 4 = 2 ∨ address % 4 = 3 := by omega
  rcases hcases with h | h | h | h <;> rw [h] <;> simp

theorem byte_setByte (haddress : address < addressEnd) (hother : other < addressEnd)
    (value : UInt8) : (memory.setByte address value).byte other =
      if other = address then value else memory.byte other := by
  rw [addressEnd] at haddress hother
  by_cases hcell : other / 4 = address / 4
  · have hold : memory.byte other =
        (memory.cell (address / 4)).byte (UInt32.ofNat (other % 4)) := by
      rw [byte, hcell]
    rw [hold, byte, setByte, hcell, cell_setCell_self]
    rcases place_cases address with ⟨ha, -⟩ | ⟨ha, -⟩ | ⟨ha, -⟩ | ⟨ha, -⟩ <;>
    rcases place_cases other with ⟨ho, hp⟩ | ⟨ho, hp⟩ | ⟨ho, hp⟩ | ⟨ho, hp⟩ <;>
    simp only [ha, hp, byte_ofBytes] <;>
    first
    | rw [if_pos (by omega)]
    | rw [if_neg (by omega)]
  · have hne : other ≠ address := fun heq => hcell (by rw [heq])
    rw [if_neg hne, byte, setByte, cell_setCell_of_ne _ _ (Ne.symm hcell), byte]
    · simp [cellBits]; omega
    · simp [cellBits]; omega

theorem byte_setWord (haddress : address + 4 ≤ addressEnd) (hother : other < addressEnd)
    (value : Word) :
    (memory.setWord address value).byte other =
      if address ≤ other ∧ other < address + 4 then value.byte (UInt32.ofNat (other - address))
      else memory.byte other := by
  rw [setWord]
  by_cases haligned : address % 4 = 0
  · rw [if_pos haligned]
    by_cases hinside : address ≤ other ∧ other < address + 4
    · have hcell : other / 4 = address / 4 := by omega
      have hplace : other % 4 = other - address := by omega
      rw [if_pos hinside, byte, hcell, cell_setCell_self, hplace]
    · rw [addressEnd] at haddress hother
      rw [if_neg hinside, byte, cell_setCell_of_ne _ _ (by omega), byte]
      · simp [cellBits]; omega
      · simp [cellBits]; omega
  · rw [if_neg haligned, byte_setByte (by omega) hother, byte_setByte (by omega) hother,
      byte_setByte (by omega) hother, byte_setByte (by omega) hother]
    by_cases hinside : address ≤ other ∧ other < address + 4
    · have hcases : other = address ∨ other = address + 1 ∨ other = address + 2 ∨
          other = address + 3 := by omega
      rw [if_pos hinside]
      rcases hcases with rfl | rfl | rfl | rfl <;> simp
    · rw [if_neg hinside, if_neg (by omega), if_neg (by omega), if_neg (by omega),
        if_neg (by omega)]

section

variable (memory : Memory) (address : Nat)

@[simp] theorem pages_setWord (value : Word) :
    (memory.setWord address value).pages = memory.pages := by
  rw [setWord]
  split <;> rfl

@[simp] theorem size_setWord (value : Word) :
    (memory.setWord address value).size = memory.size := by
  rw [size, size, pages_setWord]

theorem word_eq_ofBytes : memory.word address =
    .ofBytes (memory.byte address) (memory.byte (address + 1)) (memory.byte (address + 2))
      (memory.byte (address + 3)) := by
  rw [word]
  by_cases haligned : address % 4 = 0
  · have hbyte : ∀ place, place < 4 → memory.byte (address + place) =
        (memory.cell (address / 4)).byte (UInt32.ofNat place) := by
      intro place hplace
      have hcell : (address + place) / 4 = address / 4 := by omega
      have hrest : (address + place) % 4 = place := by omega
      rw [byte, hcell, hrest]
    have h0 := hbyte 0 (by decide)
    rw [Nat.add_zero] at h0
    rw [if_pos haligned, h0, hbyte 1 (by decide), hbyte 2 (by decide), hbyte 3 (by decide)]
    exact (ofBytes_byte _).symm
  · rw [if_neg haligned]

end

theorem word_congr (h : ∀ place, address ≤ place → place < address + 4 →
    memory'.byte place = memory.byte place) : memory'.word address = memory.word address := by
  rw [word_eq_ofBytes, word_eq_ofBytes, h _ (by omega) (by omega), h _ (by omega) (by omega),
    h _ (by omega) (by omega), h _ (by omega) (by omega)]

theorem word_setWord (haddress : address + 4 ≤ addressEnd) (value : Word) :
    (memory.setWord address value).word address = value := by
  have hbyte : ∀ place, place < 4 → (memory.setWord address value).byte (address + place) =
      value.byte (UInt32.ofNat place) := by
    intro place hplace
    rw [byte_setWord haddress (by omega), if_pos (by omega), Nat.add_sub_cancel_left]
  have h0 := hbyte 0 (by decide)
  rw [Nat.add_zero] at h0
  rw [word_eq_ofBytes, h0, hbyte 1 (by decide), hbyte 2 (by decide), hbyte 3 (by decide)]
  exact ofBytes_byte _

theorem word_setWord_of_disjoint (haddress : address + 4 ≤ addressEnd)
    (hother : other + 4 ≤ addressEnd)
    (hdisjoint : address + 4 ≤ other ∨ other + 4 ≤ address) (value : Word) :
    (memory.setWord address value).word other = memory.word other := by
  refine word_congr fun place hlow hhigh => ?_
  rw [byte_setWord haddress (by omega), if_neg (by omega)]

end Memory

end TypedWasm
